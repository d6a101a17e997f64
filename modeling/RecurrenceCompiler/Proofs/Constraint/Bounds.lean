import RecurrenceCompiler.Proofs.Constraint.Key
import RecurrenceCompiler.Proofs.Decimal.Integers

/-!
# Bounds on indices

Over doubles, a constraint between an index and an integer says of an integral index value what it
says of integers (`holds_bound`). The range that a guard leaves to an index then holds every value
where the guard holds, the grid of doubles included, so a guard whose ranges are empty holds nowhere
(`Guard.unsatisfiable_of_holds`).
-/

namespace RecurrenceCompiler

open Text Decimal Arith

/-! ## Constraints and guards that hold -/

section
variable {α : Type} [Carrier α] {env : Env α}

/-- A constraint holds if both sides have values and the values compare so. -/
theorem Constraint.holds_eq_ok_iff {c : Constraint} {b : Bool} :
    c.holds env = .ok b ↔ ∃ x y, HasValue env c.left.toList x ∧ HasValue env c.right.toList y ∧
      c.op.holds x y = b := by
  constructor
  · intro h
    obtain ⟨x, hx, h⟩ := bind_ok h
    obtain ⟨y, hy, h⟩ := bind_ok h
    exact ⟨x, y, eval_eq_ok_iff.1 hx, eval_eq_ok_iff.1 hy, Except.ok.inj h⟩
  · rintro ⟨x, y, hx, hy, rfl⟩
    rw [Constraint.holds, eval_eq_ok_iff.2 hx, eval_eq_ok_iff.2 hy]
    rfl

/-- A conjunction holds if every constraint does. -/
theorem Guard.allHold_eq_true_iff {cs : List Constraint} :
    allHold env cs = .ok true ↔ ∀ c ∈ cs, c.holds env = .ok true := by
  induction cs with
  | nil => simp [allHold]
  | cons c cs ih =>
    rw [allHold, List.forall_mem_cons, ← ih]
    cases hc : c.holds env with
    | error e =>
      constructor
      · intro h
        cases h
      · rintro ⟨h, -⟩
        cases h
    | ok b =>
      cases b with
      | true => exact ⟨fun h => ⟨rfl, h⟩, fun h => h.2⟩
      | false =>
        constructor
        · intro h
          cases h
        · rintro ⟨h, -⟩
          cases h

theorem Guard.holds_eq_true_iff {g : Guard} :
    g.holds env = .ok true ↔ ∀ c ∈ g.constraints, c.holds env = .ok true :=
  allHold_eq_true_iff

theorem Guard.and_holds_iff {g h : Guard} :
    (g.and h).holds env = .ok true ↔ g.holds env = .ok true ∧ h.holds env = .ok true := by
  simp only [holds_eq_true_iff, Guard.and, List.forall_mem_append]

/-- What a constraint says depends on the names it mentions. -/
theorem Constraint.holds_congr {env' : Env α} {c : Constraint} {b : Bool}
    (henv : ∀ n, c.mentions n = true → env n = env' n) (h : c.holds env = .ok b) :
    c.holds env' = .ok b := by
  obtain ⟨x, y, hx, hy, hb⟩ := holds_eq_ok_iff.1 h
  refine holds_eq_ok_iff.2 ⟨x, y, hx.congr fun n hn => henv n ?_, hy.congr fun n hn => henv n ?_, hb⟩
  · simp [Constraint.mentions, hn]
  · simp [Constraint.mentions, hn]

/-- A name is one token. -/
theorem tokens?_identifier {n : String} (h : isIdentifier n) : tokens? n.toList = some [.name n] := by
  rw [isIdentifier] at h
  cases hn : n.toList with
  | nil =>
    rw [hn] at h
    cases h
  | cons c cs =>
    rw [hn] at h
    obtain ⟨hc, hcs⟩ := Bool.and_eq_true_iff.1 h
    have hlex : Lexeme (.name (String.ofList (c :: cs))) (c :: cs) := .name hc hcs
    have hfirst : Token.first? (c :: cs ++ []) = some (.name (String.ofList (c :: cs)), []) := by
      have htake := takeWhile_append_of_all hcs []
      have hdrop := dropWhile_append_of_all hcs []
      rw [List.append_nil] at htake hdrop
      simp [Token.first?, scan?_eq_none_of_isNameStart hc, hc, htake, hdrop]
    have htokens := tokens?_lexeme hlex hfirst
    rw [← hn, String.ofList_toList] at htokens
    simpa [hn] using htokens

/-- The value of a name. -/
theorem hasValue_identifier {n : String} {x : α} (h : isIdentifier n) :
    HasValue env n.toList x ↔ env n = some x := by
  have htokens := tokens?_identifier h
  have hname : Derives .expr [.name n] [.name n] := .ofTerm (.ofUnary (.ofPrimary .name))
  constructor
  · rintro ⟨ts, t, hts, ht, hx⟩
    obtain rfl : [.name n] = ts := Option.some.inj (htokens.symm.trans hts)
    rw [← evalTokens_of_derives env ht, evalTokens_of_derives env hname, Tree.eval] at hx
    split at hx
    · next heq =>
      cases hx
      exact heq
    · cases hx
  · intro hx
    exact ⟨_, _, htokens, hname, by rw [Tree.eval, hx]⟩

end

/-! ## Integers in constraints -/

section
variable {env : Env Float}

/-- A run of digits is a literal. -/
theorem ofChars?_natural {ds : List Char} (h : isNatural ds) :
    Literal.ofChars? ds = some ⟨ds, false, [], none⟩ := by
  obtain ⟨hne, hds⟩ := Bool.and_eq_true_iff.1 h
  have hwf : Literal.WellFormed ⟨ds, false, [], none⟩ :=
    ⟨hds, rfl, fun _ => rfl, .inl (by simpa using hne), nofun⟩
  have hscan := Literal.scan?_chars hwf (Literal.stops_nil _)
  rw [Literal.ofChars?]
  simp only [Literal.chars, List.append_nil, Bool.false_eq_true, if_false] at hscan
  rw [hscan]

/-- **An integer text stands for an integral double, the one that `readInteger` gives.** -/
theorem hasValue_integer (env : Env Float) {cs : List Char} (h : isInteger cs) :
    ∃ x, HasValue env cs x ∧ IsIntegral x ∧ toInt x = readInteger cs := by
  have hnatural {ds : List Char} (h : isNatural ds) :
      tokens? ds = some [.num (toFloat (natOfDigits ds) 0)] := by
    have hlit := tokens?_literal (ofChars?_natural h)
    simpa [Literal.value, Literal.power] using hlit
  unfold isInteger at h
  split at h
  · next ds =>
    obtain ⟨hint, hvalue⟩ := toFloat_natural (natOfDigits ds)
    refine ⟨-toFloat (natOfDigits ds) 0, ⟨_, _, (tokens?_op .minus ds).trans (by rw [hnatural h]; rfl),
      .ofTerm (.ofUnary (.neg (.ofPrimary .num))), rfl⟩, hint.neg.1, ?_⟩
    rw [hint.neg.2, hvalue, ← onDoubleGrid_neg]
    rfl
  · next hminus =>
    obtain ⟨hint, hvalue⟩ := toFloat_natural (natOfDigits cs)
    refine ⟨toFloat (natOfDigits cs) 0, ⟨_, _, hnatural h, .ofTerm (.ofUnary (.ofPrimary .num)), rfl⟩,
      hint, ?_⟩
    rw [hvalue, readInteger]
    exact hminus

/-- What a comparison says of integers. -/
def Comparison.onInts : Comparison → Int → Int → Prop
  | .eq, i, j => i = j
  | .ne, i, j => i ≠ j
  | .lt, i, j => i < j
  | .le, i, j => i ≤ j
  | .gt, i, j => j < i
  | .ge, i, j => j ≤ i

/-- Integral doubles compare like their integers. -/
theorem Comparison.holds_iff (op : Comparison) {x y : Float} (hx : IsIntegral x) (hy : IsIntegral y) :
    op.holds x y = true ↔ op.onInts (toInt x) (toInt y) := by
  cases op with
  | eq => exact hx.beq_iff hy
  | ne =>
    change (!(x == y)) = true ↔ toInt x ≠ toInt y
    rw [Bool.not_eq_true', ne_eq, ← hx.beq_iff hy, Bool.not_eq_true]
  | lt => exact decide_eq_true_iff.trans (hx.lt_iff hy)
  | le => exact decide_eq_true_iff.trans (hx.le_iff hy)
  | gt => exact decide_eq_true_iff.trans (hy.lt_iff hx)
  | ge => exact decide_eq_true_iff.trans (hy.le_iff hx)

theorem Comparison.flip_onInts (op : Comparison) (i j : Int) : op.flip.onInts i j ↔ op.onInts j i := by
  cases op <;> simp [flip, onInts, eq_comm]

/-- **A bound that holds bounds the integer of its index.** -/
theorem Constraint.holds_bound {c : Constraint} {b : Bound}
    (henv : ∀ x, env b.name = some x → IsIntegral x)
    (hb : c.bound? = some b) (h : c.holds env = .ok true) :
    ∃ x, env b.name = some x ∧ IsIntegral x ∧ b.op.onInts (toInt x) b.value := by
  obtain ⟨x, y, hx, hy, hop⟩ := holds_eq_ok_iff.1 h
  rw [bound?] at hb
  split at hb
  · next hname =>
    cases hb
    obtain ⟨hn, hi⟩ := Bool.and_eq_true_iff.1 hname
    obtain ⟨z, hz, hint, hvalue⟩ := hasValue_integer env hi
    obtain rfl := hy.unique hz
    have hx := (hasValue_identifier hn).1 hx
    have hxi := henv _ hx
    refine ⟨x, hx, hxi, ?_⟩
    rw [← hvalue]
    exact (c.op.holds_iff hxi hint).1 hop
  · split at hb
    · next hname =>
      cases hb
      obtain ⟨hn, hi⟩ := Bool.and_eq_true_iff.1 hname
      obtain ⟨z, hz, hint, hvalue⟩ := hasValue_integer env hi
      obtain rfl := hx.unique hz
      have hy := (hasValue_identifier hn).1 hy
      have hyi := henv _ hy
      refine ⟨y, hy, hyi, ?_⟩
      rw [← hvalue]
      exact (c.op.flip_onInts _ _).2 ((c.op.holds_iff hint hyi).1 hop)
    · cases hb

/-! ## Ranges -/

/-- An integer is left by a range. -/
def Range.Mem (r : Range) (i : Int) : Prop :=
  r.low ≤ i ∧ i ≤ r.high ∧ i ∉ r.excluded

/-- A bound leaves the integral doubles that satisfy it. -/
theorem Range.mem_add {r : Range} {b : Bound} {x : Float} (hx : IsIntegral x) (hr : r.Mem (toInt x))
    (hb : b.op.onInts (toInt x) b.value) : (r.add b).Mem (toInt x) := by
  obtain ⟨hlow, hhigh, hex⟩ := hr
  rw [Range.add]
  cases hop : b.op <;> rw [hop] at hb
  case eq => exact ⟨max_le hlow hb.ge, le_min hhigh hb.le, hex⟩
  case ne => exact ⟨hlow, hhigh, by simpa using ⟨hb, hex⟩⟩
  case lt => exact ⟨hlow, le_min hhigh (le_onDoubleGrid hx (Int.le_sub_one_of_lt hb)), hex⟩
  case le => exact ⟨hlow, le_min hhigh hb, hex⟩
  case gt => exact ⟨max_le hlow (onDoubleGrid_le hx hb), hhigh, hex⟩
  case ge => exact ⟨max_le hlow hb, hhigh, hex⟩

/-- The unbounded range leaves every integral double. -/
theorem Range.mem_unbounded {x : Float} (hx : IsIntegral x) : Range.Mem {} (toInt x) := by
  have habs := abs_le.1 (abs_doubleValue_le hx.1)
  rw [hx.doubleValue_eq, ← overflow_eq_limit] at habs
  exact ⟨by exact_mod_cast habs.1, by exact_mod_cast habs.2, by simp⟩

theorem Range.not_empty_of_mem {r : Range} {i : Int} (h : r.Mem i) : r.empty = false := by
  obtain ⟨hlow, hhigh, hex⟩ := h
  rw [Range.empty, Bool.or_eq_false_iff, decide_eq_false_iff_not, Bool.and_eq_false_iff]
  refine ⟨by omega, ?_⟩
  by_cases heq : r.low = r.high
  · obtain rfl : i = r.low := by omega
    exact .inr (by simpa using hex)
  · exact .inl (by simpa using heq)

/-- The values of an environment that a guard bounds are integral. -/
def Guard.BoundsIntegral (g : Guard) (env : Env Float) : Prop :=
  ∀ b ∈ g.bounds, ∀ x, env b.name = some x → IsIntegral x

theorem Guard.BoundsIntegral.and {g h : Guard} (hg : g.BoundsIntegral env)
    (hh : h.BoundsIntegral env) : (g.and h).BoundsIntegral env := by
  rw [BoundsIntegral, bounds, Guard.and, List.filterMap_append]
  exact List.forall_mem_append.2 ⟨hg, hh⟩

/-- **A guard that holds at integral values is not found unsatisfiable.** -/
theorem Guard.unsatisfiable_of_holds {g : Guard} (henv : g.BoundsIntegral env)
    (h : g.holds env = .ok true) : g.unsatisfiable = false := by
  rw [holds_eq_true_iff] at h
  have hbound : ∀ b ∈ g.bounds, ∃ x, env b.name = some x ∧ IsIntegral x ∧
      b.op.onInts (toInt x) b.value := by
    intro b hb
    obtain ⟨c, hc, hcb⟩ := List.mem_filterMap.1 hb
    exact c.holds_bound (henv b hb) hcb (h c hc)
  rw [unsatisfiable, List.any_eq_false]
  intro b hb
  obtain ⟨x, hx, hint, -⟩ := hbound b hb
  -- The value of the index stays in the range, bound after bound.
  have hrange : ∀ (bs : List Bound) (r : Range), (∀ d ∈ bs, d ∈ g.bounds ∧ d.name = b.name) →
      r.Mem (toInt x) → (bs.foldl Range.add r).Mem (toInt x) := by
    intro bs
    induction bs with
    | nil => exact fun _ _ hr => hr
    | cons d bs ih =>
      intro r hbs hr
      obtain ⟨hd, hname⟩ := hbs d (by simp)
      obtain ⟨y, hy, -, hdy⟩ := hbound d hd
      obtain rfl : x = y := by
        rw [hname, hx] at hy
        exact Option.some.inj hy
      exact ih _ (fun e he => hbs e (by simp [he])) (Range.mem_add hint hr hdy)
  have hmem := hrange (g.bounds.filter fun d => d.name == b.name) {}
    (fun d hd => by simpa using hd) (Range.mem_unbounded hint)
  simpa [range] using Range.not_empty_of_mem hmem

/-- Guards whose bounds contradict each other do not hold together. -/
theorem Guard.disjoint_of_provablyDisjoint {g h : Guard} (hgenv : g.BoundsIntegral env)
    (hhenv : h.BoundsIntegral env) (hdisjoint : g.provablyDisjoint h = true)
    (hg : g.holds env = .ok true) : h.holds env ≠ .ok true := by
  intro hh
  have := unsatisfiable_of_holds (hgenv.and hhenv) (and_holds_iff.2 ⟨hg, hh⟩)
  rw [provablyDisjoint, this] at hdisjoint
  cases hdisjoint

end

end RecurrenceCompiler
