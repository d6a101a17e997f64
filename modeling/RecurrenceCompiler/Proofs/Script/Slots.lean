import RecurrenceCompiler.Proofs.Arith.IntegerTexts
import RecurrenceCompiler.Proofs.Script.Shifts

/-!
# Tables with slots and loops over them

A number that is a natural number names a slot of a table, and what is written there replaces what the slot
held (`Value.write_slots`). A loop over the slots of a layer runs its body once for each of them, in order
(`runStmt_loop`). If the body fills the slot that the index is at, the loop fills all slots from its start on
(`runStmt_fillFrom`).
-/

namespace RecurrenceCompiler

open Text Decimal Arith

/-- Doubles add integers as far as they count. -/
theorem Decimal.ofInt_add {j k : Int} (hj : j.natAbs ≤ 2 ^ 53) (hk : k.natAbs ≤ 2 ^ 53)
    (hadd : (j + k).natAbs ≤ 2 ^ 53) : ofInt j + ofInt k = ofInt (j + k) :=
  ((isInt_ofInt hj).add (isInt_ofInt hk) hadd).eq_ofInt hadd (isNegativeZero_add (isNegativeZero_ofInt j))

/-- The natural number that a double is. -/
theorem Decimal.toNat?_of_isInt {x : Float} {k : Int} (hx : IsInt x k) (hk : k.natAbs ≤ 2 ^ 53) :
    Carrier.toNat? x = if 0 ≤ k then some k.toNat else none := by
  have hzero : IsIntegral 0.0 ∧ toInt 0.0 = 0 := toFloat_natural 0
  have hle : (0.0 ≤ x) ↔ 0 ≤ k := by
    rw [hzero.1.le_iff hx.isIntegral, hzero.2, hx.toInt_eq]
  change (if isWhole x && 0.0 ≤ x then some (toInt x).toNat else none) = _
  simp [hx.isWhole hk, hle, hx.toInt_eq]

namespace Script

/-! ## Slots -/

section
variable {α : Type}

/-- A table with a number of slots, and values under other keys. -/
def Value.slots (length : Nat) (f : Nat → Value α) (named : List (String × Value α)) : Value α :=
  .table ((List.range length).map f) named

theorem Value.ofItems_replicate (length : Nat) (v : Value α) :
    Value.ofItems (List.replicate length v) = Value.slots length (fun _ => v) [] := by
  rw [Value.ofItems, Value.slots, List.map_const', List.length_range]

theorem set_map_range {f : Nat → Value α} {length k : Nat} (v : Value α) :
    ((List.range length).map f).set k v = (List.range length).map (Function.update f k v) := by
  refine List.ext_getElem (by simp) fun i hi hi' => ?_
  rw [List.getElem_set, List.getElem_map, List.getElem_map, List.getElem_range, Function.update_apply]
  by_cases h : k = i
  · rw [if_pos h, if_pos h.symm]
  · rw [if_neg h, if_neg (Ne.symm h)]

end

variable {length : Nat} {f : Nat → Value Float} {named : List (String × Value Float)} {k : Int}

/-- A natural number names the slot that it is. -/
theorem Value.slot?_ofInt (hk : 0 ≤ k) (hlt : k < length) (hlength : length < 2 ^ 32) :
    (Value.num (ofInt k) : Value Float).slot? = some k.toNat := by
  rw [Value.slot?, toNat?_of_isInt (isInt_ofInt (by omega)) (by omega), if_pos hk]
  exact Option.filter_eq_some_iff.2 ⟨rfl, by simp; omega⟩

/-- **A write to a slot replaces what it held.** -/
theorem Value.write_slots (hk : 0 ≤ k) (hlt : k < length) (hlength : length < 2 ^ 32) (v : Value Float) :
    (Value.slots length f named).write (.num (ofInt k)) v =
      .ok (Value.slots length (Function.update f k.toNat v) named) := by
  rw [Value.slots, Value.write, Value.slot?_ofInt hk hlt hlength]
  dsimp only
  rw [if_pos (by simp; omega), set_map_range, Value.slots]

/-- A read of a slot finds what it holds. -/
theorem Value.element_slots (hk : 0 ≤ k) (hlt : k < length) (hlength : length < 2 ^ 32) :
    (Value.slots length f named).element (.num (ofInt k)) = .ok (f k.toNat) := by
  have hget : ((List.range length).map f)[k.toNat]? = some (f k.toNat) := by
    rw [List.getElem?_map, List.getElem?_range (by omega)]
    rfl
  rw [Value.slots, Value.element, Value.slot?_ofInt hk hlt hlength]
  dsimp only
  rw [hget]
  rfl

/-- A write below zero leaves the slots alone. -/
theorem Value.write_slots_neg (hk : k < 0) (hsmall : k.natAbs ≤ 2 ^ 53) (v : Value Float) :
    ∃ named', (Value.slots length f named).write (.num (ofInt k)) v =
      .ok (Value.slots length f named') := by
  have hplace : (Value.num (ofInt k) : Value Float).slot? = none := by
    rw [Value.slot?, toNat?_of_isInt (isInt_ofInt hsmall) hsmall, if_neg (by omega)]
    rfl
  rw [Value.slots, Value.write, hplace]
  exact ⟨_, rfl⟩

section
variable {w : World Float} {limits : Limits} {s : Locals Float} {slot e : Expression} {v : Value Float}

/-- **A statement that writes a slot.** -/
theorem runStmt_write (limits : Limits)
    (hout : s.find? "out" = some ⟨"out", some (Value.slots length f named)⟩)
    (hslot : w.eval s slot = .ok (.num (ofInt k))) (he : w.eval s e = .ok v) (hk : 0 ≤ k) (hlt : k < length)
    (hlength : length < 2 ^ 32) : runStmt limits w s (.write slot e) =
      .ok (s.assign "out" (Value.slots length (Function.update f k.toNat v) named), none) := by
  have htable : w.eval s (.name "out") = .ok (Value.slots length f named) := Locals.read_of_find? hout
  rw [runStmt, htable, hslot, he]
  dsimp only [bind, Except.bind]
  rw [Value.write_slots hk hlt hlength]
  rfl

/-- A statement that writes below zero. -/
theorem runStmt_write_neg (limits : Limits)
    (hout : s.find? "out" = some ⟨"out", some (Value.slots length f named)⟩)
    (hslot : w.eval s slot = .ok (.num (ofInt k))) (he : w.eval s e = .ok v) (hk : k < 0)
    (hsmall : k.natAbs ≤ 2 ^ 53) : ∃ named', runStmt limits w s (.write slot e) =
      .ok (s.assign "out" (Value.slots length f named'), none) := by
  have htable : w.eval s (.name "out") = .ok (Value.slots length f named) := Locals.read_of_find? hout
  obtain ⟨named', hwrite⟩ : ∃ named', (Value.slots length f named).write (.num (ofInt k)) v =
      .ok (Value.slots length f named') := Value.write_slots_neg hk hsmall v
  refine ⟨named', ?_⟩
  rw [runStmt, htable, hslot, he]
  dsimp only [bind, Except.bind]
  rw [hwrite]
  rfl

end

/-! ## Loops -/

section
variable {w : World Float} {limits : Limits} {s : Locals Float} {aux : String} {start size : Int}
  {body : List (Stmt Expression)} {P : Int → Locals Float → Prop}

/-- What a loop over slots does at a slot of the layer, and at its head: the index is at the slot, and the
number of slots is known. -/
structure Loops (limits : Limits) (w : World Float) (aux : String) (start size : Int)
    (body : List (Stmt Expression)) (P : Int → Locals Float → Prop) : Prop where
  index : ∀ k t, P k t → t.find? aux = some ⟨aux, some (.num (ofInt k))⟩
  count : ∀ k t, P k t → t.read w.names "N_VALUES" = .ok (.num (ofInt size))
  pass : ∀ k t, start ≤ k → k < size → P k t → ∃ u,
    runStmts limits w (t.enter (declared body)) body = .ok (u, none) ∧
      (t.leave u).find? aux = some ⟨aux, some (.num (ofInt k))⟩ ∧
      P (k + 1) ((t.leave u).assign aux (.num (ofInt (k + 1))))

/-- Whether a loop goes on at a slot. -/
theorem Loops.test_head (h : Loops limits w aux start size body P) (hsize : size.natAbs ≤ 2 ^ 53) {t : Locals Float}
    (hk : k.natAbs ≤ 2 ^ 53) (ht : P k t) :
    w.test t (.binary .lt (.name aux) (.name "N_VALUES")) = .ok (decide (k < size)) := by
  have hindex : w.eval t (.name aux) = .ok (.num (ofInt k)) := Locals.read_of_find? (h.index k t ht)
  have hcount : w.eval t (.name "N_VALUES") = .ok (.num (ofInt size)) := h.count k t ht
  rw [World.test_binary hindex hcount]
  have hlt := indexArithmetic_double.lt_iff (isInt_ofInt hk) (isInt_ofInt hsize)
  refine congrArg Except.ok ?_
  change Carrier.lt (ofInt k) (ofInt size) = _
  rw [Bool.eq_iff_iff, hlt, decide_eq_true_iff]

/-- Passes over slots from one on. As many are needed as slots are left, and one more to find that none is. -/
theorem exists_iterate {test : Locals Float → Except Error Bool} {step : Locals Float → Except Error (Outcome Float)}
    {next : Locals Float → Except Error (Locals Float)}
    (htest : ∀ k t, start ≤ k → k ≤ size → P k t → test t = .ok (decide (k < size)))
    (hstep : ∀ k t, start ≤ k → k < size → P k t →
      ∃ u v, step t = .ok (u, none) ∧ next u = .ok v ∧ P (k + 1) v) (n : Nat) :
    ∀ (passes : Nat) {t : Locals Float}, start ≤ k → size - k = n → n < passes → P k t →
      ∃ t', P size t' ∧ iterate test step next passes t = .ok (t', none) := by
  induction n generalizing k with
  | zero =>
    intro passes t hk hn hpasses ht
    obtain ⟨passes, rfl⟩ := Nat.exists_eq_succ_of_ne_zero hpasses.ne'
    obtain rfl : k = size := by omega
    refine ⟨t, ht, ?_⟩
    rw [iterate, htest k t hk le_rfl ht, decide_eq_false (lt_irrefl k)]
    rfl
  | succ n ih =>
    intro passes t hk hn hpasses ht
    obtain ⟨passes, rfl⟩ := Nat.exists_eq_succ_of_ne_zero (Nat.ne_zero_of_lt hpasses)
    obtain ⟨u, v, hu, hv, hnext⟩ := hstep k t hk (by omega) ht
    obtain ⟨t', ht', hrest⟩ := ih passes (by omega) (by omega) (Nat.lt_of_succ_lt_succ hpasses) hnext
    refine ⟨t', ht', ?_⟩
    rw [iterate, htest k t hk (by omega) ht, decide_eq_true (by omega)]
    dsimp only [bind, Except.bind, if_true]
    rw [hu]
    dsimp only
    rw [hv]
    exact hrest

/-- A pass of a loop. -/
def loopPass (limits : Limits) (w : World Float) (body : List (Stmt Expression)) (t : Locals Float) :
    Except Error (Outcome Float) := do
  let p ← runStmts limits w (t.enter (declared body)) body
  return (t.leave p.1, p.2)

/-- The index of a loop counts up after a pass. -/
def loopNext (w : World Float) (n : String) (t : Locals Float) : Except Error (Locals Float) := do
  let i ← w.eval t (.name n)
  return t.assign n (.num (Carrier.add i.toNumber (Carrier.ofInt 1)))

theorem runStmt_loop_eq : runStmt limits w s (.loop aux start body) = do
    let p ← iterate (fun t => w.test t (.binary .lt (.name aux) (.name "N_VALUES"))) (loopPass limits w body)
      (loopNext w aux) limits.passes (⟨aux, some (.num (ofInt start))⟩ :: s)
    return (s.leave p.1, p.2) := by
  rw [runStmt]
  rfl

/-- **A loop over slots runs its body at each of them, in order.** -/
theorem runStmt_loop (h : Loops limits w aux start size body P) (hstart : 0 ≤ start)
    (hsize : size ≤ 2 ^ 53) (hle : start ≤ size) (hpasses : size - start < limits.passes)
    (hinit : P start (⟨aux, some (.num (ofInt start))⟩ :: s)) :
    ∃ t, P size t ∧ runStmt limits w s (.loop aux start body) = .ok (s.leave t, none) := by
  have htest (k : Int) (t : Locals Float) (hk : start ≤ k) (hle : k ≤ size) (ht : P k t) :
      w.test t (.binary .lt (.name aux) (.name "N_VALUES")) = .ok (decide (k < size)) :=
    h.test_head (by omega) (by omega) ht
  have hpass (k : Int) (t : Locals Float) (hk : start ≤ k) (hlt : k < size) (ht : P k t) :
      ∃ u v, loopPass limits w body t = .ok (u, none) ∧ loopNext w aux u = .ok v ∧ P (k + 1) v := by
    obtain ⟨u, hu, hindex, hnext⟩ := h.pass k t hk hlt ht
    have heval : w.eval (t.leave u) (.name aux) = .ok (.num (ofInt k)) := Locals.read_of_find? hindex
    have hadd : (Value.num (Carrier.add (Value.num (ofInt k) : Value Float).toNumber (Carrier.ofInt 1)) :
        Value Float) = .num (ofInt (k + 1)) := congrArg Value.num (ofInt_add (by omega) (by decide) (by omega))
    refine ⟨t.leave u, _, ?_, ?_, hnext⟩
    · rw [loopPass, hu]
      rfl
    · rw [loopNext, heval, ← hadd]
      rfl
  have hslots : size - start = (size - start).toNat := by omega
  obtain ⟨t, ht, hiterate⟩ := exists_iterate htest hpass _ limits.passes le_rfl hslots (by omega) hinit
  refine ⟨t, ht, ?_⟩
  rw [runStmt_loop_eq, hiterate]
  rfl

end

/-! ## Filling slots -/

/-- A function after writes to its buffer: the buffer has these slots, and all other names are what they
were. -/
structure Wrote (s t : Locals Float) (length : Nat) (f : Nat → Value Float) : Prop where
  names : t.names = s.names
  others : ∀ n, n ≠ "out" → t.find? n = s.find? n
  out : ∃ named, t.find? "out" = some ⟨"out", some (Value.slots length f named)⟩

theorem Wrote.refl {s : Locals Float} (h : s.find? "out" = some ⟨"out", some (Value.slots length f named)⟩) :
    Wrote s s length f :=
  ⟨rfl, fun _ _ => rfl, named, h⟩

theorem Wrote.assign {s : Locals Float} (h : "out" ∈ s.names) :
    Wrote s (s.assign "out" (Value.slots length f named)) length f :=
  ⟨Locals.names_assign .., fun _ hn => Locals.find?_assign_of_ne hn, named, Locals.find?_assign_self h⟩

theorem Wrote.trans {s t u : Locals Float} {f' : Nat → Value Float} (h : Wrote s t length f)
    (h' : Wrote t u length f') : Wrote s u length f' :=
  ⟨h'.names.trans h.names, fun n hn => (h'.others n hn).trans (h.others n hn), h'.out⟩

/-- Only the slots of the table matter. -/
theorem Wrote.congr {s t : Locals Float} {f' : Nat → Value Float} (h : Wrote s t length f)
    (hsame : ∀ k < length, f k = f' k) : Wrote s t length f' := by
  obtain ⟨named, hout⟩ := h.out
  have hslots : Value.slots length f named = Value.slots length f' named := by
    rw [Value.slots, Value.slots, List.map_congr_left fun k hk => hsame k (List.mem_range.1 hk)]
  exact ⟨h.names, h.others, named, hslots ▸ hout⟩

/-- A scope with one name more that ends after writes to the buffer. -/
theorem Wrote.leave {s inner : Locals Float} {aux : String} (hnames : inner.names = aux :: s.names)
    (hothers : ∀ n, n ≠ "out" → n ≠ aux → inner.find? n = s.find? n)
    (hwritten : ∃ named, inner.find? "out" = some ⟨"out", some (Value.slots length f named)⟩) (hfresh : aux ∉ s.names)
    (hout : aux ≠ "out") : Wrote s (s.leave inner) length f := by
  have hnames : inner.names = [aux] ++ s.names := hnames
  refine ⟨Locals.names_leave hnames, fun n hn => ?_, ?_⟩
  · by_cases hne : n = aux
    · subst hne
      rw [Locals.find?_eq_none hfresh, Locals.find?_eq_none]
      rwa [Locals.names_leave hnames]
    · rw [Locals.find?_leave hnames (by simpa using hne)]
      exact hothers n hn hne
  · obtain ⟨named, hlast⟩ := hwritten
    exact ⟨named, (Locals.find?_leave hnames (by simpa using hout.symm)).trans hlast⟩

/-- A block that writes one slot: whatever the buffer holds, running the block puts a value into the slot, and
what the block declares is gone after it. -/
def FillsSlot (limits : Limits) (w : World Float) (length : Nat) (body : List (Stmt Expression))
    (t : Locals Float) (k : Nat) (v : Value Float) : Prop :=
  ∀ g named, t.find? "out" = some ⟨"out", some (Value.slots length g named)⟩ → ∃ u,
    runStmts limits w (t.enter (declared body)) body = .ok (u, none) ∧
      Wrote t (t.leave u) length (Function.update g k v)

section
variable {w : World Float} {limits : Limits} {s t : Locals Float} {aux : String} {start size : Int} {e : Expression}
  {body : List (Stmt Expression)} {value : Nat → Value Float}

/-- A statement that writes a slot is a block that does. -/
theorem fillsSlot_write {slot : Expression} {k : Nat} {v : Value Float} (hslot : w.eval t slot = .ok (.num (ofInt k)))
    (he : w.eval t e = .ok v) (hk : k < length) (hlength : length < 2 ^ 32) :
    FillsSlot limits w length [.write slot e] t k v := by
  intro g named hfind
  have hwrite := runStmt_write limits hfind hslot he (by omega) (by omega) hlength
  refine ⟨_, runStmts_singleton hwrite, ?_⟩
  rw [Locals.leave_of_names (Locals.names_assign ..)]
  exact .assign (Locals.mem_names_of_find? hfind)

/-- **A block that is run under a condition** writes its slot where the condition holds. -/
theorem runStmt_when {c : Expression} {b : Bool} {k : Nat} {v : Value Float} (htest : w.test s c = .ok b)
    (hfind : s.find? "out" = some ⟨"out", some (Value.slots length f named)⟩)
    (hbody : b = true → FillsSlot limits w length body s k v) :
    ∃ t, runStmt limits w s (.when c body) = .ok (t, none) ∧
      Wrote s t length (if b then Function.update f k v else f) := by
  rw [runStmt, htest]
  cases b with
  | false => exact ⟨s, rfl, .refl hfind⟩
  | true =>
    obtain ⟨u, hrun, hwrote⟩ := hbody rfl f named hfind
    refine ⟨s.leave u, ?_, hwrote⟩
    dsimp only [bind, Except.bind, if_true]
    rw [hrun]
    rfl

/-- A loop over slots, at one of them: the index is there, and all names but the buffer are what they were
before the loop. -/
structure Indexed (s : Locals Float) (aux : String) (k : Int) (t : Locals Float) : Prop where
  names : t.names = aux :: s.names
  index : t.find? aux = some ⟨aux, some (.num (ofInt k))⟩
  others : ∀ n, n ≠ "out" → n ≠ aux → t.find? n = s.find? n

/-- A loop that fills slots, at a slot: those before it are filled. -/
structure Filled (s : Locals Float) (aux : String) (length : Nat) (f value : Nat → Value Float) (k : Int)
    (t : Locals Float) : Prop extends Indexed s aux k t where
  out : ∃ named, t.find? "out" =
    some ⟨"out", some (Value.slots length (fun j => if (j : Int) < k then value j else f j) named)⟩

/-- **A loop that fills slots goes on from slot to slot.** -/
theorem loops_fill (limits : Limits) (hcount : s.read w.names "N_VALUES" = .ok (.num (ofInt size))) (hout : aux ≠ "out")
    (hname : aux ≠ "N_VALUES") (hstart : 0 ≤ start)
    (hbody : ∀ (k : Nat) t, start ≤ k → (k : Int) < size → Indexed s aux k t →
      FillsSlot limits w length body t k (value k)) :
    Loops limits w aux start size body (Filled s aux length f value) where
  index _ _ ht := ht.index
  count k t ht := by
    rw [Locals.read_congr (ht.others "N_VALUES" (by decide) (Ne.symm hname))]
    exact hcount
  pass k t hk hlt ht := by
    obtain ⟨named, hfind⟩ := ht.out
    lift k to Nat using hstart.trans hk
    obtain ⟨u, hrun, hwrote⟩ := hbody k t hk hlt ht.toIndexed _ named hfind
    have hindex := (hwrote.others aux hout).trans ht.index
    refine ⟨u, hrun, hindex, ⟨?_, ?_, fun n hn hne => ?_⟩, ?_⟩
    · rw [Locals.names_assign, hwrote.names, ht.names]
    · exact Locals.find?_assign_self (Locals.mem_names_of_find? hindex)
    · rw [Locals.find?_assign_of_ne hne, hwrote.others n hn]
      exact ht.others n hn hne
    · obtain ⟨named', hwritten⟩ := hwrote.out
      refine ⟨named', ?_⟩
      rw [Locals.find?_assign_of_ne hout.symm, hwritten]
      congr 4
      funext j
      by_cases hj : j = k
      · subst hj
        simp
      · rw [Function.update_of_ne hj]
        exact if_congr (by omega) rfl rfl

/-- A loop that starts at the end of the layer does nothing. -/
theorem runStmt_loop_of_le (hcount : s.read w.names "N_VALUES" = .ok (.num (ofInt size))) (hname : aux ≠ "N_VALUES")
    (hsize : size.natAbs ≤ 2 ^ 53) (hle : size ≤ start) (hpasses : 0 < limits.passes) :
    runStmt limits w s (.loop aux start body) = .ok (s, none) := by
  obtain ⟨passes, hpasses⟩ := Nat.exists_eq_succ_of_ne_zero hpasses.ne'
  have hindex : w.eval (⟨aux, some (.num (ofInt start))⟩ :: s) (.name aux) = .ok (.num (ofInt start)) :=
    Locals.read_of_find? (Locals.find?_cons_self _ s)
  have hcount' : w.eval (⟨aux, some (.num (ofInt start))⟩ :: s) (.name "N_VALUES") = .ok (.num (ofInt size)) :=
    (Locals.read_congr (Locals.find?_cons_of_ne hname s)).trans hcount
  -- A start beyond what doubles count is rounded, but not below the size.
  have hnot : Carrier.lt (ofInt start) (ofInt size) = false := by
    have hsize := isInt_ofInt hsize
    have hround := rounds_ofInt start
    refine decide_eq_false ?_
    rw [hround.isIntegral.lt_iff hsize.isIntegral, hsize.toInt_eq, toInt_ofInt, not_lt]
    exact hsize.toInt_eq ▸ le_onDoubleGrid hsize.isIntegral (hsize.toInt_eq.symm ▸ hle)
  have htest : w.test (⟨aux, some (.num (ofInt start))⟩ :: s) (.binary .lt (.name aux) (.name "N_VALUES")) =
      .ok false := (World.test_binary hindex hcount').trans (congrArg Except.ok hnot)
  have hleave : s.leave (⟨aux, some (.num (ofInt start))⟩ :: s) = s := by
    simp [Locals.leave]
  rw [runStmt_loop_eq, hpasses, iterate, htest]
  exact congrArg (fun t => Except.ok (t, none)) hleave

/-- **A loop from a slot on fills the slots from there.** -/
theorem runStmt_fillFrom (value : Nat → Value Float) (hcount : s.read w.names "N_VALUES" = .ok (.num (ofInt size)))
    (hfind : s.find? "out" = some ⟨"out", some (Value.slots length f named)⟩) (hfresh : aux ∉ s.names)
    (hout : aux ≠ "out") (hname : aux ≠ "N_VALUES") (hstart : 0 ≤ start) (hpos : 0 ≤ size) (hsize : size ≤ length)
    (hlength : length < 2 ^ 32) (hpasses : size < limits.passes)
    (hbody : ∀ (k : Nat) t, start ≤ k → (k : Int) < size → Indexed s aux k t →
      FillsSlot limits w length body t k (value k)) :
    ∃ t, runStmt limits w s (.loop aux start body) = .ok (t, none) ∧
      Wrote s t length fun k => if start ≤ k ∧ (k : Int) < size then value k else f k := by
  rcases lt_or_ge size start with hlt | hle
  · have hnone : (fun k : Nat => if start ≤ k ∧ (k : Int) < size then value k else f k) = f :=
      funext fun k => if_neg (by omega)
    refine ⟨s, runStmt_loop_of_le hcount hname (by omega) hlt.le (by omega), ?_⟩
    rw [hnone]
    exact .refl hfind
  · let value' : Nat → Value Float := fun k => if start ≤ k then value k else f k
    have hloops : Loops limits w aux start size body (Filled s aux length f value') := by
      refine loops_fill limits hcount hout hname hstart fun k t hk hlt ht => ?_
      have hvalue : value' k = value k := if_pos hk
      exact hvalue ▸ hbody k t hk hlt ht
    have hnone : (fun j : Nat => if (j : Int) < start then value' j else f j) = f := by
      funext j
      split
      · next hj => exact if_neg (by omega)
      · rfl
    have hall : (fun j : Nat => if (j : Int) < size then value' j else f j) =
        fun k : Nat => if start ≤ k ∧ (k : Int) < size then value k else f k := by
      funext j
      by_cases hj : start ≤ (j : Int) <;> simp [value', hj]
    obtain ⟨t, ht, hrun⟩ := runStmt_loop (s := s) hloops hstart (by omega) hle (by omega)
      ⟨⟨rfl, Locals.find?_cons_self _ _, fun n _ hne => Locals.find?_cons_of_ne (Ne.symm hne) s⟩, named, by
        rw [Locals.find?_cons_of_ne hout, hfind, hnone]⟩
    have hwritten := ht.out
    rw [hall] at hwritten
    exact ⟨_, hrun, .leave ht.names ht.others hwritten hfresh hout⟩

/-- **A loop over all slots fills them.** -/
theorem runStmt_fill (value : Nat → Value Float) (hcount : s.read w.names "N_VALUES" = .ok (.num (ofInt size)))
    (hfind : s.find? "out" = some ⟨"out", some (Value.slots length f named)⟩) (hfresh : aux ∉ s.names)
    (hout : aux ≠ "out") (hname : aux ≠ "N_VALUES") (hpos : 0 ≤ size) (hsize : size ≤ length)
    (hlength : length < 2 ^ 32) (hpasses : size < limits.passes)
    (he : ∀ (k : Nat) t, (k : Int) < size → Indexed s aux k t → w.eval t e = .ok (value k)) :
    ∃ t, runStmt limits w s (.loop aux 0 [.write (.name aux) e]) = .ok (t, none) ∧
      Wrote s t length fun k => if (k : Int) < size then value k else f k := by
  have hbody (k : Nat) (t : Locals Float) (hlt : (k : Int) < size) (ht : Indexed s aux k t) :
      FillsSlot limits w length [.write (.name aux) e] t k (value k) := by
    have hindex : w.eval t (.name aux) = .ok (.num (ofInt k)) := Locals.read_of_find? ht.index
    exact fillsSlot_write hindex (he k t hlt ht) (by omega) hlength
  obtain ⟨t, hrun, hwrote⟩ := runStmt_fillFrom value hcount hfind hfresh hout hname le_rfl hpos hsize hlength
    hpasses fun k t _ hlt ht => hbody k t hlt ht
  exact ⟨t, hrun, by simpa using hwrote⟩

end

end Script

end RecurrenceCompiler
