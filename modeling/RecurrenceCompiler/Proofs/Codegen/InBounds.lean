import RecurrenceCompiler.Proofs.Codegen.Lengths
import RecurrenceCompiler.Proofs.Codegen.SlotReads

/-!
# Layers stay inside their buffers

A buffer for another layer has as many slots as the larger of the two layers and, beyond them, as many as
the largest shift upwards of a call in the group. The blocks of a group's roles count the slots of their
own layer, so what they read is inside the buffers and what they write is inside the layer
(`blocks_in_bounds`), on doubles and on integers of 32 bits.

This needs the loop's index to be there: an index with the name of an intermediate is hidden by it
(`blocks_out_of_bounds`). The one slot of a role must be an integer, too (`half_slot_written`).
-/

namespace RecurrenceCompiler

open Text Decimal Arith Script

namespace Script

/-! ## Bounds -/

section
variable {α : Type} (Is : α → Int → Prop)

/-- A value is an integer from zero on and below a bound. -/
def Value.IsBelow (bound : Int) (v : Value α) : Prop :=
  ∃ x k, v = .num x ∧ Is x k ∧ 0 ≤ k ∧ k < bound

/-- A value is an integer, if it is in a layer of some size at all. -/
def Value.IsIntegerSlot [Carrier α] (size : α) (v : Value α) : Prop :=
  (Value.num (Carrier.ofFloat 0.0)).lessEq v = true → v.less (.num size) = true →
    ∃ y k, v = .num y ∧ Is y k

/-- An access is inside the tables: a read inside one of the buffers that statements make for layers of
some size, in a layer of another one, and a write inside that layer. -/
def Access.InBounds (fills : List (Stmt String)) (other own : Int) : Access α → Prop
  | .read table index => ∃ p, .previous p ∈ fills ∧ table = .name p.name ∧
      index.IsBelow Is (max other own + p.extra)
  | .write slot => slot.IsBelow Is own

end

theorem Expression.plain_ofNumber (x : Float) : (Expression.ofNumber x).Plain := by
  rw [Expression.ofNumber]
  cases Reading.ofFloat x with
  | nan => exact .name
  | zero => exact .num
  | infinite negative =>
    cases negative with
    | false => exact .name
    | true => exact .negate .name
  | finite negative b =>
    cases negative with
    | false => exact .num
    | true => exact .negate .num

theorem Expression.plain_shifted (index : String) (shift : Int) : (Expression.shifted index shift).Plain := by
  rw [Expression.shifted]
  split
  · exact .name
  · split <;> exact .binary .name (plain_ofNumber _)

/-! ## Reads -/

/-- The buffers that reads with some shifts are for, in a layer with a number of slots: each has at least
the slots of the layer and as many more as the largest shift, and there are numbers for all of them. -/
structure Buffered (names : List String) (shifts : List Int) (fills : List (Stmt String))
    (limit own extra : Int) : Prop where
  nonneg : 0 ≤ extra
  le : ∀ shift ∈ shifts, shift ≤ extra
  finite : ∀ shift ∈ shifts, IsFinite (ofInt shift)
  limit : names ≠ [] → own + extra ≤ limit
  fills : ∀ b ∈ names, ∃ p, .previous p ∈ fills ∧ p.name = b ∧ p.extra = extra

section
variable {α : Type} [Carrier α] {Is : α → Int → Prop} {limit own extra : Int}
  (harith : IndexArithmetic α Is limit) {names : List String} {aux : String} {shifts : List Int}
  {fills : List (Stmt String)} (hbuffers : Buffered names shifts fills limit own extra)
  {zero : Expression}

section
variable {scope : Expression.Names α} {functions : Expression.Functions α} {e t i : Expression} {v : Value α}
  (hread : Expression.EvaluatedIn scope functions (.element t i) e) (hv : i.eval scope functions = .ok v)
include hbuffers

omit [Carrier α] in
/-- A buffer is as long as the layer and its extra slots, whatever the size of the other layer. -/
theorem Buffered.inBounds {b : String} (hb : b ∈ names) (h : v.IsBelow Is (own + extra)) (other : Int) :
    (Access.read (.name b) v).InBounds Is fills other own := by
  obtain ⟨p, hp, rfl, rfl⟩ := hbuffers.fills b hb
  obtain ⟨x, k, rfl, hx, hpos, hlt⟩ := h
  exact ⟨p, hp, rfl, x, k, rfl, hx, hpos, by omega⟩

include harith hread hv

/-- **A read at slot zero, shifted, is inside a buffer.** -/
theorem SlotRead.known_inBounds (h : SlotRead names aux shifts zero (some 0) e) (hown : 0 < own)
    (other : Int) : (Access.read t v).InBounds Is fills other own := by
  cases h with
  | @known b _ shift hb hshift hpos =>
    obtain ⟨rfl, rfl⟩ := hread.eq_of_plain .name (Expression.plain_ofNumber _)
    have hle := hbuffers.le shift hshift
    have hlimit := hbuffers.limit (List.ne_nil_of_mem hb)
    obtain ⟨y, hy, hvalue⟩ := harith.eval_natural scope functions hpos (by omega)
    cases hy.symm.trans hv
    exact hbuffers.inBounds hb ⟨y, _, rfl, hvalue, hpos, by omega⟩ other

/-- **A read at the loop's slot, shifted, is inside a buffer.** -/
theorem SlotRead.relative_inBounds (h : SlotRead names aux shifts zero none e) (hzero : zero.Plain) {x : α}
    {k : Int} (haux : scope aux = .ok (.num x)) (hx : Is x k) (hk : 0 ≤ k) (hlt : k < own) (other : Int) :
    (Access.read t v).InBounds Is fills other own := by
  have hextra := hbuffers.nonneg
  cases h with
  | @up b shift hb hshift hpos =>
    obtain ⟨rfl, rfl⟩ := hread.eq_of_plain .name (Expression.plain_shifted aux shift)
    have hle := hbuffers.le shift hshift
    have hlimit := hbuffers.limit (List.ne_nil_of_mem hb)
    have hshifted : ∃ y, (Expression.shifted aux shift).eval scope functions = .ok (.num y) ∧
        Is y (k + shift) := harith.eval_shifted haux hx hk hpos (by omega)
    obtain ⟨y, hy, hvalue⟩ := hshifted
    cases hy.symm.trans hv
    exact hbuffers.inBounds hb ⟨y, _, rfl, hvalue, by omega, by omega⟩ other
  | @down b shift hb hshift hneg =>
    have hlimit := hbuffers.limit (List.ne_nil_of_mem hb)
    cases hread with
    | test hread =>
      have hplain : (Expression.binary .ge (.shifted aux shift) (.num 0.0)).Plain :=
        .binary (Expression.plain_shifted aux shift) .num
      exact absurd hread hplain.not_evaluatedIn
    | no _ _ hread => exact absurd hread hzero.not_evaluatedIn
    | yes htest hholds hread =>
      obtain ⟨rfl, rfl⟩ := hread.eq_of_plain .name (Expression.plain_shifted aux shift)
      rw [Expression.eval_binary hv rfl] at htest
      cases htest
      obtain ⟨y, j, rfl, hvalue, hj, hji⟩ := harith.eval_shifted_of_le haux hx hk (by omega) hneg
        (hbuffers.finite shift hshift) hv hholds
      exact hbuffers.inBounds hb ⟨y, j, rfl, hvalue, hj, by omega⟩ other

end

/-! ## Blocks -/

variable {w : World α} {limits : Limits} {s : Locals α} {body : List (Stmt Expression)} {a : Access α}
  {x : α}

include harith hbuffers

/-- **The block for slot zero.** -/
theorem inBounds_zero (hbody : WritesSlot (SlotRead names aux shifts zero (some 0)) (.num 0.0) body)
    (hsize : s.read w.names "N_VALUES" = .ok (.num x)) (hx : Is x own)
    (ha : Accesses limits w s [.when (.binary .gt (.name "N_VALUES") (.num 0.0)) body] a) (other : Int) :
    a.InBounds Is fills other own := by
  have hplain : (Expression.binary .gt (.name "N_VALUES") (.num 0.0)).Plain := .binary .name .num
  cases ha with
  | read hmem heval =>
    obtain rfl := List.mem_singleton.1 hmem
    exact absurd heval hplain.not_evaluatedIn
  | next _ ha => cases ha
  | when htest ha =>
    have hsize : w.eval s (.name "N_VALUES") = .ok (.num x) := hsize
    rw [World.test_binary hsize rfl] at htest
    have hown : 0 < own := (harith.lt_iff harith.zero hx).1 (Except.ok.inj htest)
    refine accesses_body (fun _ => True) hbody .num (fun _ _ _ _ _ => trivial) ?_ ?_ trivial ha
    · intro s e t i v _ hpart hread hv
      exact hpart.known_inBounds harith hbuffers hread hv hown other
    · intro s v _ hv
      cases hv
      exact ⟨_, 0, rfl, harith.zero, le_rfl, hown⟩

/-- **The body of a block at a slot of the layer.** -/
theorem inBounds_body (hbody : WritesSlot (SlotRead names aux shifts zero none) (.name aux) body)
    (hzero : zero.Plain) (hfree : aux ∉ declared body) {y : α} {k : Int}
    (haux : s.find? aux = some ⟨aux, some (.num y)⟩) (hy : Is y k) (hk : 0 ≤ k) (hlt : k < own)
    (ha : Accesses limits w (s.enter (declared body)) body a) (other : Int) :
    a.InBounds Is fills other own := by
  refine accesses_body (fun t => t.find? aux = some ⟨aux, some (.num y)⟩) hbody .name ?_ ?_ ?_
    ((Locals.find?_enter hfree).trans haux) ha
  · intro t n v ht hn
    have hne : aux ≠ n := by
      rintro rfl
      exact hfree hn
    rwa [Locals.find?_assign_of_ne hne]
  · intro t e table i v ht hpart hread hv
    exact hpart.relative_inBounds harith hbuffers hread hv hzero (Locals.read_of_find? ht) hy hk hlt other
  · intro t v ht hv
    cases (Locals.read_of_find? ht).symm.trans hv
    exact ⟨y, k, rfl, hy, hk, hlt⟩

/-- What holds at the head of a loop over the slots: the size of the layer is known, and the index is at a
slot as long as the loop goes on. -/
structure AtHead (Is : α → Int → Prop) (w : World α) (aux : String) (x : α) (t : Locals α) : Prop where
  size : t.read w.names "N_VALUES" = .ok (.num x)
  index : ∃ y, t.find? aux = some ⟨aux, some (.num y)⟩ ∧
    (Carrier.lt y x = true → ∃ k, Is y k ∧ 0 ≤ k)

/-- **The loop over the slots of the layer.** -/
theorem inBounds_general (hbody : WritesSlot (SlotRead names aux shifts zero none) (.name aux) body)
    (hzero : zero.Plain) (hfree : aux ∉ "out" :: "N_VALUES" :: declared body)
    (hnames : "N_VALUES" ∉ declared body) {start : Int} (hstart : 0 ≤ start)
    (hsize : s.read w.names "N_VALUES" = .ok (.num x)) (hx : Is x own)
    (ha : Accesses limits w s [.loop aux start body] a) (other : Int) : a.InBounds Is fills other own := by
  simp only [List.mem_cons, not_or] at hfree
  obtain ⟨hout, hcount, hfree⟩ := hfree
  have hgoes {t : Locals α} (ht : AtHead Is w aux x t) (h : w.goesOn aux t = .ok true) :
      ∃ y k, t.find? aux = some ⟨aux, some (.num y)⟩ ∧ Is y k ∧ 0 ≤ k ∧ k < own := by
    obtain ⟨y, hy, hslot⟩ := ht.index
    have haux : w.eval t (.name aux) = .ok (.num y) := Locals.read_of_find? hy
    have hcount : w.eval t (.name "N_VALUES") = .ok (.num x) := ht.size
    rw [World.goesOn, World.test_binary haux hcount] at h
    have hlt : Carrier.lt y x = true := Except.ok.inj h
    obtain ⟨k, hk, hpos⟩ := hslot hlt
    exact ⟨y, k, hy, hk, hpos, (harith.lt_iff hk hx).1 hlt⟩
  have hhead {t : Locals α} (ht : Heads limits w aux body (⟨aux, some (.num (Carrier.ofInt start))⟩ :: s) t) :
      AtHead Is w aux x t := by
    induction ht with
    | start =>
      refine ⟨?_, _, Locals.find?_cons_self _ s, harith.start hstart hx⟩
      rw [Locals.read_congr (Locals.find?_cons_of_ne hcount s), hsize]
    | @pass t u v _ hgo hrun hv ih =>
      obtain ⟨y, k, hy, hk, hpos, -⟩ := hgoes ih hgo
      have hkept : (t.leave u).find? aux = some ⟨aux, some (.num y)⟩ :=
        (find?_leave_body hbody hrun hout hfree).trans hy
      cases (Locals.read_of_find? hkept).symm.trans hv
      refine ⟨?_, _, Locals.find?_assign_self (Locals.mem_names_of_find? hkept), harith.next hk hpos hx⟩
      rw [Locals.read_congr (Locals.find?_assign_of_ne (Ne.symm hcount)),
        Locals.read_congr (find?_leave_body hbody hrun (by decide) hnames), ih.size]
  cases ha with
  | read hmem => cases hmem
  | next _ ha => cases ha
  | loop ht hgo ha =>
    obtain ⟨y, k, hy, hk, hpos, hlt⟩ := hgoes (hhead ht) hgo
    exact inBounds_body harith hbuffers hbody hzero hfree hy hk hpos hlt ha other

/-- The body of a block at a slot that is checked to be one of the layer. -/
theorem inBounds_checked (hbody : WritesSlot (SlotRead names aux shifts zero none) (.name aux) body)
    (hzero : zero.Plain) (hfree : aux ∉ declared body) {v : Value α}
    (haux : s.find? aux = some ⟨aux, some v⟩) (hvalue : v.IsIntegerSlot Is x)
    (hsize : s.read w.names "N_VALUES" = .ok (.num x)) (hx : Is x own)
    (ha : Accesses limits w s [.when
      (.both (.binary .ge (.name aux) (.num 0.0)) (.binary .lt (.name aux) (.name "N_VALUES"))) body] a)
    (other : Int) : a.InBounds Is fills other own := by
  have hplain : (Expression.both (.binary .ge (.name aux) (.num 0.0))
      (.binary .lt (.name aux) (.name "N_VALUES"))).Plain := .both (.binary .name .num) (.binary .name .name)
  have hindex : w.eval s (.name aux) = .ok v := Locals.read_of_find? haux
  have hcount : w.eval s (.name "N_VALUES") = .ok (.num x) := hsize
  cases ha with
  | read hmem heval =>
    obtain rfl := List.mem_singleton.1 hmem
    exact absurd heval hplain.not_evaluatedIn
  | next _ ha => cases ha
  | when htest ha =>
    obtain ⟨hge, hlt⟩ := World.test_both htest
    rw [World.test_binary hindex rfl] at hge
    rw [World.test_binary hindex hcount] at hlt
    obtain ⟨y, k, rfl, hy⟩ := hvalue (Except.ok.inj hge) (Except.ok.inj hlt)
    have hpos : 0 ≤ k := (harith.le_iff harith.zero hy).1 (Except.ok.inj hge)
    have hbelow : k < own := (harith.lt_iff hy hx).1 (Except.ok.inj hlt)
    exact inBounds_body harith hbuffers hbody hzero hfree haux hy hpos hbelow ha other

/-- **The block for the one slot that an expression names**, if its value is an integer
where it is in the layer. -/
theorem inBounds_max (hbody : WritesSlot (SlotRead names aux shifts zero none) (.name aux) body)
    (hzero : zero.Plain) (hfree : aux ∉ "out" :: "N_VALUES" :: declared body) {e : Expression}
    (he : e.Plain) (hvalue : ∀ v, w.eval (s.enter [aux]) e = .ok v → v.IsIntegerSlot Is x)
    (hsize : s.read w.names "N_VALUES" = .ok (.num x)) (hx : Is x own)
    (ha : Accesses limits w s [.block [.index aux e,
      .when (.both (.binary .ge (.name aux) (.num 0.0)) (.binary .lt (.name aux) (.name "N_VALUES"))) body]] a)
    (other : Int) : a.InBounds Is fills other own := by
  simp only [List.mem_cons, not_or] at hfree
  obtain ⟨-, hcount, hfree⟩ := hfree
  cases ha with
  | read hmem => cases hmem
  | next _ ha => cases ha
  | block ha =>
    cases ha with
    | read hmem heval =>
      obtain rfl := List.mem_singleton.1 hmem
      exact absurd heval he.not_evaluatedIn
    | next hrun ha =>
      rw [runStmt] at hrun
      obtain ⟨v, hv, hrun⟩ := bind_ok hrun
      cases hrun
      refine inBounds_checked harith hbuffers hbody hzero hfree (Locals.find?_assign_self ?_) (hvalue v hv)
        ?_ hx ha other
      · rw [Locals.names_enter]
        exact List.mem_cons_self
      · rw [← hsize]
        refine Locals.read_congr ((Locals.find?_assign_of_ne (Ne.symm hcount)).trans
          (Locals.find?_enter ?_))
        exact fun hmem => hcount (List.mem_singleton.1 hmem).symm

end

end Script

/-! ## Roles -/

namespace Script

mutual

/-- The intermediates that a statement declares, those in its blocks among them. -/
def intermediates : Stmt ε → List String
  | .value n _ => [n]
  | .when _ body | .loop _ _ body | .block body => allIntermediates body
  | _ => []

/-- The intermediates that statements declare. -/
def allIntermediates : List (Stmt ε) → List String
  | [] => []
  | s :: ss => intermediates s ++ allIntermediates ss

end

end Script

namespace Recurrence

variable {r : Recurrence} {o : CodegenOptions} {resolve : Resolver} {plan : LayerPlan} {g : LayerGroup}
  {buffers : List Buffer}

/-- A statement of a role: a comment, or the block of a rule of the group. -/
inductive RoleStmt (r : Recurrence) (o : CodegenOptions) (plan : LayerPlan) (g : LayerGroup)
    (buffers : List Buffer) : Stmt String → Prop
  | comment {t} : RoleStmt r o plan g buffers (.comment t)
  | zero {lr b} : lr ∈ g.rules →
      r.layerBody o plan buffers (some 0) (lr.rule.expr.substitute (fixed plan.aux "0")) = .ok b →
      RoleStmt r o plan g buffers (.when "N_VALUES > 0" (writeSlot "0" b))
  | general {lr start b} : lr ∈ g.rules → 0 ≤ start →
      r.layerBody o plan buffers none lr.rule.expr = .ok b →
      RoleStmt r o plan g buffers (.loop plan.aux start (writeSlot plan.aux b))
  | max {lr expr b} : lr ∈ g.rules → lr.role = .max expr →
      r.layerBody o plan buffers none lr.rule.expr = .ok b →
      RoleStmt r o plan g buffers (.block [.index plan.aux expr,
        .when (plan.aux ++ " >= 0 && " ++ plan.aux ++ " < N_VALUES") (writeSlot plan.aux b)])

/-- **The statements of a group's roles.** -/
theorem roleStmt_of_roleCode (hstart : ∀ lr ∈ g.rules, ∀ start, lr.role = .general start → 0 ≤ start)
    {roles : List RoleCode} (h : r.roleCode o plan g buffers = .ok roles) :
    ∀ stmt ∈ roles.flatMap (·.2), RoleStmt r o plan g buffers stmt := by
  rw [roleCode_eq] at h
  rw [List.forall_mem_flatMap]
  intro p hp
  obtain ⟨lr, hlr, hcode⟩ := exists_of_forall₂ (forall₂_of_mapM h) hp
  have hlr := LayerGroup.mem_of_mem_blocks hlr
  rw [blockCode] at hcode
  cases hrole : lr.role with
  | zero =>
    rw [hrole] at hcode
    obtain ⟨b, hb, hcode⟩ := bind_ok hcode
    cases hcode
    exact List.forall_mem_cons.2 ⟨.comment, List.forall_mem_singleton.2 (.zero hlr hb)⟩
  | general start =>
    rw [hrole] at hcode
    obtain ⟨b, hb, hcode⟩ := bind_ok hcode
    cases hcode
    refine List.forall_mem_singleton.2 (.general hlr ?_ hb)
    have hstart := hstart lr hlr start hrole
    rw [LayerGroup.firstSlot]
    split
    · exact zero_le_one.trans (le_max_left 1 start)
    · exact hstart
  | max expr =>
    rw [hrole] at hcode
    obtain ⟨b, hb, hcode⟩ := bind_ok hcode
    cases hcode
    exact List.forall_mem_cons.2 ⟨.comment, List.forall_mem_singleton.2 (.max hlr hrole hb)⟩

/-- The names of buffers are names. -/
theorem isText_bufferName (h : r.buffers plan g = .ok buffers) :
    ∀ b ∈ buffers, IsText .operand b.name [.name b.name] := by
  have hreserved : ∀ n ∈ reservedWords, ¬ "prev".toList <+: n.toList := by decide
  have hname (rest : String) (hrest : rest.toList.all continuesName) :
      IsText .operand ("prev" ++ rest) [.name ("prev" ++ rest)] := by
    refine isText_name ?_ fun hmem => hreserved _ hmem (by simp)
    simpa [isScriptName] using ⟨by decide, by decide, by decide, by decide, by simpa using hrest⟩
  obtain ⟨found, -, h⟩ := bind_ok h
  cases h
  intro b hb
  obtain ⟨⟨sig, i⟩, -, hb⟩ := List.mem_filterMap.1 hb
  obtain ⟨⟨target, shifts⟩, -, rfl⟩ := Option.map_eq_some_iff.1 hb
  dsimp only
  split
  · exact hname "" rfl
  · have htext : "prev_" ++ toString i = "prev" ++ ("_" ++ toString i) := by
      rw [← String.append_assoc]
      rfl
    rw [htext]
    exact hname _ (List.all_eq_true.2
      (continuesName_of_isNameRun (Body.isNameRun_underscore (Body.continuesName_toString i))))

/-- The names that a body declares are among the intermediates of its block. -/
theorem declared_subset_intermediates {P : String → Prop} {b : Body} (h : b.HasTexts P) (slot : String) :
    declared (writeSlot slot b) ⊆ allIntermediates (writeSlot slot b) := by
  obtain ⟨ss, result, strategy⟩ := b
  obtain ⟨hss, -⟩ := h
  rw [writeSlot]
  dsimp only at hss ⊢
  induction ss with
  | nil => exact List.Subset.refl _
  | cons s ss ih =>
    rw [List.forall_mem_cons] at hss
    cases hss.1 with
    | comment => exact ih hss.2
    | value => exact List.cons_subset_cons _ (ih hss.2)

theorem readText_zero : readText "0" = .ok (.num 0.0) := by
  have hzero : IsText .operand "0" [.num 0.0] := ⟨_, rfl, .num⟩
  exact (hzero.binary 1).cond.readText

theorem isText_size : IsText .operand "N_VALUES" [.name "N_VALUES"] :=
  isText_name (by decide) (by decide)

/-- The condition of the block for slot zero. -/
theorem readText_sizePositive :
    readText "N_VALUES > 0" = .ok (.binary .gt (.name "N_VALUES") (.num 0.0)) := by
  have hzero : IsText .operand "0" [.num 0.0] := ⟨_, rfl, .num⟩
  have hsymbol : Script.tokens? ">".toList = some [.mark (.op .gt)] := rfl
  exact (IsText.join (k := 4) rfl hsymbol (by omega : 1 ≤ 4) (isText_size.binary 4) (hzero.binary 5)).cond.readText

/-- The condition that a slot is one of the layer. -/
theorem readText_checked {aux : String} (haux : IsText .operand aux [.name aux]) :
    readText (aux ++ " >= 0 && " ++ aux ++ " < N_VALUES") =
      .ok (.both (.binary .ge (.name aux) (.num 0.0)) (.binary .lt (.name aux) (.name "N_VALUES"))) := by
  have hzero : IsText .operand "0" [.num 0.0] := ⟨_, rfl, .num⟩
  have hge : Script.tokens? ">=".toList = some [.mark (.op .ge)] := rfl
  have hand : Script.tokens? "&&".toList = some [.mark .and] := rfl
  have hlt : Script.tokens? "<".toList = some [.mark (.op .lt)] := rfl
  have hleft := IsText.join (k := 4) rfl hge (by omega : 2 ≤ 4) (haux.binary 4) (hzero.binary 5)
  have hright := IsText.join (k := 4) rfl hlt (by omega : 3 ≤ 4) (haux.binary 4) (isText_size.binary 5)
  have hboth := (IsText.join (k := 2) rfl hand (by omega : 1 ≤ 2) hleft hright).cond.readText
  simpa [String.append_assoc] using hboth

/-- What can be declared is no reserved word. -/
theorem not_reserved_of_canDeclare {n : String} {ns : List String}
    (h : require (canDeclare (n :: ns)) = .ok ()) : n ∉ reservedWords := by
  rw [require] at h
  split at h
  · next hcan =>
    rw [canDeclare, canBeParams, Bool.and_eq_true, Bool.and_eq_true] at hcan
    simpa using List.all_eq_true.1 hcan.1.2 n List.mem_cons_self
  · cases h

/-- The names that a block with the body of a rule declares are not the size of the layer, nor the index. -/
theorem not_mem_declared {aux slot : String} {auxAt : Option Int} {e : Expr} {b : Body} {P : String → Prop}
    (hb : r.layerBody o plan buffers auxAt e = .ok b) (htexts : b.HasTexts P)
    (hfree : aux ∉ "out" :: "N_VALUES" :: allIntermediates (writeSlot slot b)) :
    aux ∉ "out" :: "N_VALUES" :: declared (writeSlot slot b) ∧
      "N_VALUES" ∉ declared (writeSlot slot b) := by
  refine ⟨fun hmem => hfree ?_, fun hmem => ?_⟩
  · exact List.cons_subset_cons _ (List.cons_subset_cons _ (declared_subset_intermediates htexts slot)) hmem
  · rw [writeSlot, Script.declared_append, List.mem_append] at hmem
    cases hmem with
    | inl hmem => cases Body.underscore_of_render hb _ hmem
    | inr hmem => cases hmem

/-- The block for the one slot that an expression names, read as a script. -/
theorem readStmts_slot {aux expr : String} {stmts : List (Stmt String)} {inner : List (Stmt Expression)}
    (haux : IsText .operand aux [.name aux])
    (h : readStmts [.index aux expr, .when (aux ++ " >= 0 && " ++ aux ++ " < N_VALUES") stmts] = .ok inner) :
    ∃ e body, readText expr = .ok e ∧ readStmts stmts = .ok body ∧
      inner = [.index aux e, .when (.both (.binary .ge (.name aux) (.num 0.0))
        (.binary .lt (.name aux) (.name "N_VALUES"))) body] := by
  obtain ⟨index, hindex, h⟩ := bind_ok h
  obtain ⟨checked, hchecked, h⟩ := bind_ok h
  cases h
  rw [readStmt] at hindex
  obtain ⟨e, he, hindex⟩ := bind_ok hindex
  cases hindex
  obtain ⟨whens, hwhens, hchecked⟩ := bind_ok hchecked
  obtain ⟨rest, hrest, hchecked⟩ := bind_ok hchecked
  cases hrest
  cases hchecked
  rw [readStmt] at hwhens
  obtain ⟨c, hc, hwhens⟩ := bind_ok hwhens
  obtain ⟨⟨⟩, -, hwhens⟩ := bind_ok hwhens
  obtain ⟨body, hbody, hwhens⟩ := bind_ok hwhens
  cases hwhens
  cases (readText_checked haux).symm.trans hc
  exact ⟨e, body, he, hbody, rfl⟩

/-- A block of a group's roles, read as a script. -/
structure RoleBlock (r : Recurrence) (o : CodegenOptions) (plan : LayerPlan) (g : LayerGroup)
    (buffers : List Buffer) (stmt : Stmt String) (block : List (Stmt Expression)) : Prop where
  role : ∃ roles, r.roleCode o plan g buffers = .ok roles ∧ stmt ∈ roles.flatMap (·.2)
  no_comment : ∀ t, stmt ≠ .comment t
  reads : readStmt stmt = .ok block

section
variable (α : Type) [Carrier α] (Is : α → Int → Prop) (limit : Int) (plan : LayerPlan) (g : LayerGroup)
  (buffers : List Buffer)

/-- A rule layer as the blocks of its roles find it: its size is known, there are numbers for the slots of
the buffers, and the one slots of roles are written without brackets. -/
structure InLayer (w : World α) (s : Locals α) (size : α) (own : Int) : Prop where
  sized : s.read w.names "N_VALUES" = .ok (.num size)
  counts : Is size own
  limit : buffers ≠ [] → own + extraSlots plan g ≤ limit
  unbracketed : ∀ lr ∈ g.rules, ∀ expr, lr.role = .max expr → '[' ∉ expr.toList

/-- The one slots of roles are integers where they are in the layer. -/
def IntegerSlots (w : World α) (s : Locals α) (size : α) : Prop :=
  ∀ lr ∈ g.rules, ∀ expr, lr.role = .max expr →
    ∀ e v, readText expr = .ok e → w.eval (s.enter [plan.aux]) e = .ok v → v.IsIntegerSlot Is size

/-- The blocks of a group's roles, run in a number system in which some numbers stand for integers, access
tables inside their bounds only, whatever the size of the layers that they read. The auxiliary index has
none of the names that they use. -/
def BlocksInBounds (r : Recurrence) (o : CodegenOptions) (resolve : Resolver) : Prop :=
  ∀ stmt block, RoleBlock r o plan g buffers stmt block →
    plan.aux ∉ "out" :: "N_VALUES" :: intermediates stmt →
    ∀ (limits : Limits) (w : World α) (s : Locals α) (size : α) (own : Int),
      InLayer α Is limit plan g buffers w s size own → IntegerSlots α Is plan g w s size →
      ∀ a, Accesses limits w s block a → ∀ other,
        a.InBounds Is (r.fillBuffers resolve plan g buffers) other own

end

/-- **Blocks stay inside their buffers** in any number system that counts the slots. -/
theorem blocksInBounds {α : Type} [Carrier α] {Is : α → Int → Prop} {limit : Int}
    (harith : IndexArithmetic α Is limit) (hr : r.Built) (hd : o.dialect.NamesVecType)
    (hplan : r.planLayers o.tablePadding = .ok plan) (hg : g ∈ plan.groups)
    (hbuffers : r.buffers plan g = .ok buffers)
    (hfinite : ∀ lr ∈ g.rules, ∀ c ∈ lr.rule.expr.calls, IsFinite (ofInt (c.shiftAt plan.auxSlot))) :
    BlocksInBounds α Is limit plan g buffers r o resolve := by
  rintro stmt block ⟨⟨roles, hroles, hstmt⟩, hcomment, hread⟩ hfree limits w s x own hlayer hslots a ha other
  have hplanned := planned_of_planLayersIn hplan
  have hgathered := hplanned.gathered.member g hg
  obtain ⟨zero, hzero, hplain⟩ := Dialect.exists_zero hd
  have hnames := isText_bufferName hbuffers
  have hsize := hlayer.sized
  have hx := hlayer.counts
  have hid : isIdentifier plan.aux := hr.wellFormed.identifiers _ (hr.wellFormed.aux _ hplanned.aux)
  have haux (hres : plan.aux ∉ reservedWords) : IsText .operand plan.aux [.name plan.aux] :=
    isText_name (isScriptName_of_isIdentifier hid) hres
  have hleaves {lr : LayerRule} (hlr : lr ∈ g.rules) : ∀ l ∈ lr.rule.expr.leaves, l.Unbracketed :=
    fun l hl => (hr.rules_kept lr.rule ((sortedRules_perm r).subset (hgathered lr hlr).1) l hl).unbracketed
      hr.wellFormed.runtime
  have hbuffered {lr : LayerRule} (hlr : lr ∈ g.rules) : Buffered (buffers.map (·.name))
      (lr.rule.expr.calls.map (·.shiftAt plan.auxSlot)) (r.fillBuffers resolve plan g buffers) limit own
      (extraSlots plan g) := by
    refine ⟨extraSlots_nonneg plan g, ?_, ?_, fun hne => hlayer.limit ?_, ?_⟩
    · exact List.forall_mem_map.2 fun c hc => shiftAt_le_extraSlots hlr hc
    · exact List.forall_mem_map.2 (hfinite lr hlr)
    · rintro rfl
      exact hne rfl
    · exact List.forall_mem_map.2 fun b hb => previous_mem_fillBuffers hb
  cases roleStmt_of_roleCode (fun lr hlr start hrole => auxRole_general (hrole ▸ (hgathered lr hlr).2.1)) hroles
    stmt hstmt with
  | comment => exact absurd rfl (hcomment _)
  | @zero lr b hlr hb =>
    have haux : some (0 : Int) = none → IsText .operand plan.aux [.name plan.aux] := nofun
    have hfixed : ∀ l ∈ (lr.rule.expr.substitute (fixed plan.aux "0")).leaves, l.Unbracketed := by
      rw [Expr.leaves_substitute]
      exact List.forall_mem_map.2 fun l hl => (hleaves hlr l hl).fixed plan.aux
    have htexts := texts_layerBody hd hzero haux hnames hfixed hb
    rw [Expr.calls_substitute] at htexts
    rw [readStmt] at hread
    obtain ⟨c, hc, hread⟩ := bind_ok hread
    obtain ⟨⟨⟩, -, hread⟩ := bind_ok hread
    obtain ⟨body, hbody, hread⟩ := bind_ok hread
    cases hread
    obtain ⟨hwrites, -⟩ := Body.writesSlot_of_body htexts readText_zero hbody
    cases readText_sizePositive.symm.trans hc
    exact inBounds_zero harith (hbuffered hlr) hwrites hsize hx ha other
  | @general lr start b hlr hstart hb =>
    rw [readStmt] at hread
    obtain ⟨⟨⟩, hcan, hread⟩ := bind_ok hread
    obtain ⟨⟨⟩, -, hread⟩ := bind_ok hread
    obtain ⟨body, hbody, hread⟩ := bind_ok hread
    cases hread
    have haux := haux (not_reserved_of_canDeclare hcan)
    have htexts := texts_layerBody hd hzero (fun _ => haux) hnames (hleaves hlr) hb
    obtain ⟨hwrites, hdeclared⟩ := Body.writesSlot_of_body htexts (haux.binary 1).cond.readText hbody
    obtain ⟨hfree, hcount⟩ := not_mem_declared hb htexts hfree
    rw [← hdeclared] at hfree hcount
    exact inBounds_general harith (hbuffered hlr) hwrites hplain hfree hcount hstart hsize hx ha other
  | @max lr expr b hlr hrole hb =>
    rw [readStmt] at hread
    obtain ⟨⟨⟩, hcan, hread⟩ := bind_ok hread
    obtain ⟨inner, hinner, hread⟩ := bind_ok hread
    cases hread
    obtain ⟨e, body, he, hbody, rfl⟩ := readStmts_slot (haux (not_reserved_of_canDeclare hcan)) hinner
    have haux := haux (not_reserved_of_canDeclare hcan)
    have htexts := texts_layerBody hd hzero (fun _ => haux) hnames (hleaves hlr) hb
    obtain ⟨hwrites, hdeclared⟩ := Body.writesSlot_of_body htexts (haux.binary 1).cond.readText hbody
    obtain ⟨hfree, -⟩ := @not_mem_declared r o plan buffers plan.aux plan.aux none lr.rule.expr b _ hb htexts
      (by simpa [intermediates, allIntermediates] using hfree)
    rw [← hdeclared] at hfree
    have hslot : e.Plain := (segmented_of_notMem (hlayer.unbracketed lr hlr expr hrole)).over he
    exact inBounds_max harith (hbuffered hlr) hwrites hplain hfree hslot
      (fun v hv => hslots lr hlr expr hrole e v he hv) hsize hx ha other

/-- **Rule layers stay inside their buffers.** Each read of another layer that a block of a role makes is at
an integer from zero on and below the larger of the two layers' sizes and the extra slots, and each write is
at a slot of the layer: in scripts, which count on doubles, and in compiled code, which counts on integers of
32 bits. -/
theorem blocks_in_bounds (hr : r.Built) (hplan : r.planLayers o.tablePadding = .ok plan)
    (hg : g ∈ plan.groups) (hbuffers : r.buffers plan g = .ok buffers)
    (hfinite : ∀ lr ∈ g.rules, ∀ c ∈ lr.rule.expr.calls, IsFinite (ofInt (c.shiftAt plan.auxSlot))) :
    (o.target = .js → BlocksInBounds Float IsInt (2 ^ 53) plan g buffers r o resolve) ∧
    (o.target = .cpp → isIdentifier o.vecType → o.vecType ∉ reservedWords → ∀ strict,
      BlocksInBounds (Machine strict) (fun x k => x.value? = some k) (2 ^ 31 - 1) plan g buffers r o
        resolve) := by
  refine ⟨fun htarget => ?_, fun htarget hname hreserved strict => ?_⟩
  · have hd : o.dialect.NamesVecType := fun hcpp => by cases htarget.symm.trans hcpp
    exact blocksInBounds indexArithmetic_double hr hd hplan hg hbuffers hfinite
  · exact blocksInBounds (indexArithmetic_machine strict) hr (fun _ => ⟨hname, hreserved⟩) hplan hg hbuffers
      hfinite

/-! ## Three roles, and indices that are no slots -/

/-- A rule for slot zero, one for the last slot and one for those between. -/
def threeRoleSteps : List Step :=
  [.validity ["t >= 0", "t <= n"], .base [("n", 0), ("t", 0)] (.number 1),
    .rule "n > 0 && t == 0" "E[n-1, t+1]" none none, .rule "n > 0 && t == n" "E[n-1, t-1]" none none,
    .rule "n > 0" "E[n-1, t] + E[n-1, t-1]" none none]

/-- The blocks of three roles stay inside the buffer of the layer below. -/
theorem blocks_in_bounds_roles : ∃ r plan g buffers, planOf threeRoleSteps = .ok (r, plan) ∧
    g ∈ plan.groups ∧ g.rules.map (·.role) = [.zero, .max "n", .general 0] ∧
    r.buffers plan g = .ok buffers ∧ buffers.map (·.name) = ["prev"] ∧ extraSlots plan g = 1 ∧
    (∀ lr ∈ g.rules, ∀ c ∈ lr.rule.expr.calls, IsFinite (ofInt (c.shiftAt plan.auxSlot))) ∧
    BlocksInBounds Float IsInt (2 ^ 53) plan g buffers r { target := .js } fun _ => none := by
  have hcheck : ((planOf threeRoleSteps).toOption.any fun p => p.2.groups.any fun g =>
      decide (g.rules.map (·.role) = [.zero, .max "n", .general 0]) && extraSlots p.2 g == 1 &&
      (g.rules.all fun lr => lr.rule.expr.calls.all fun c => (c.shiftAt p.2.auxSlot).natAbs ≤ 1) &&
      (p.1.buffers p.2 g).toOption.any fun buffers => buffers.map (·.name) == ["prev"]) = true := by
    decide +kernel
  obtain ⟨⟨r, plan⟩, hrun, hcheck⟩ := exists_ok_of_any hcheck
  obtain ⟨hr, hplan⟩ := planOf_eq_ok hrun
  obtain ⟨g, hg, hcheck⟩ := List.any_eq_true.1 hcheck
  simp only [Bool.and_eq_true, beq_iff_eq, decide_eq_true_eq, List.all_eq_true] at hcheck
  obtain ⟨⟨⟨hroles, hextra⟩, hshifts⟩, hbuffers⟩ := hcheck
  obtain ⟨buffers, hbuffers, hnames⟩ := exists_ok_of_any hbuffers
  have hfinite : ∀ lr ∈ g.rules, ∀ c ∈ lr.rule.expr.calls, IsFinite (ofInt (c.shiftAt plan.auxSlot)) := by
    intro lr hlr c hc
    have hshift := hshifts lr hlr c hc
    exact (isInt_ofInt (by omega)).1
  have hplan : r.planLayers ({ target := .js } : CodegenOptions).tablePadding = .ok plan := hplan
  exact ⟨r, plan, g, buffers, hrun, hg, hroles, hbuffers, beq_iff_eq.1 hnames, hextra, hfinite,
    (blocks_in_bounds hr hplan hg hbuffers hfinite).1 rfl⟩

/-- A recurrence whose auxiliary index has the name of an intermediate. -/
def hiddenPlan : Except Error (Recurrence × LayerPlan) := do
  let r ← create "Path" ["n", "_cse_coeff_1"] [] { auxIndex := some "_cse_coeff_1" }
  let r ← r.build [.validity ["_cse_coeff_1 >= 0", "_cse_coeff_1 <= n"],
    .base [("n", 0), ("_cse_coeff_1", 0)] (.number 1),
    .rule "n > 0" "(n+7)*E[n-1, _cse_coeff_1] + (n+7)*E[n-1, _cse_coeff_1]" none none]
  let plan ← r.planLayers (.whole 0)
  return (r, plan)

/-- The names in layer one, which has two slots. -/
def layerOneLocals : Locals Float :=
  [⟨"n", some (.num (ofInt 1))⟩, ⟨"N_VALUES", some (.num (ofInt 2))⟩,
    ⟨"prev", some (.ofItems [.num 1, .num 0])⟩, ⟨"out", some (.ofItems [.num 0, .num 0])⟩]

/-- A world without names and functions. -/
def emptyWorld : World Float :=
  ⟨fun n => .error (.fault (.unknownName n)), fun _ _ => .error (.fault (.unknownName ""))⟩

/-- Whether the last statement of a loop's body writes slot eight, where the loop counts from its start in
layer one, its rule is the only one of its group, and the body hides the index. -/
def writesSlotEight (plan : LayerPlan) (g : LayerGroup) :
    Stmt String → List (Stmt Expression) → Bool
  | .loop name first stmts, [.loop n start body] =>
    let t : Locals Float := ⟨n, some (.num (Carrier.ofInt start))⟩ :: layerOneLocals
    decide (plan.aux ∈ intermediates (.loop name first stmts)) && decide (g.rules.map (·.role) = [.general 0]) &&
    extraSlots plan g == 0 && (emptyWorld.goesOn n t).toOption.any id &&
    (runStmts Program.standardLimits emptyWorld (Locals.enter t (declared body))
      body.dropLast).toOption.any fun out => out.2.isNone &&
        match body.getLast? with
        | some (.write slot _) => (emptyWorld.eval out.1 slot).toOption.any (·.isInt 8)
        | _ => false
  | _, _ => false

/-- **A hidden index leads out of bounds**: in the recurrence of `hiddenPlan` the coefficient is shared
under the name of the loop's index, so layer one, which has two slots, is written at slot eight, and layered
code finds a zero in place of the value. -/
theorem blocks_out_of_bounds : ∃ r plan g buffers stmt block,
    hiddenPlan = .ok (r, plan) ∧ g ∈ plan.groups ∧ r.buffers plan g = .ok buffers ∧
    RoleBlock r { target := .js } plan g buffers stmt block ∧ plan.aux ∈ intermediates stmt ∧
    InLayer Float IsInt (2 ^ 53) plan g buffers emptyWorld layerOneLocals (ofInt 2) 2 ∧
    (∃ a, Accesses Program.standardLimits emptyWorld layerOneLocals block a ∧
      ∀ other, ¬ a.InBounds IsInt (r.fillBuffers (fun _ => none) plan g buffers) other 2) ∧
    ∃ c x y, ({} : Catalog).register r userModule = .ok c ∧
      c.evaluate r.name [(1 : Float), 0] (fun _ => none) true = .ok x ∧ x == 0 ∧
      Derivable (fun _ => none) (fun _ => none) r [(1 : Float), 0] y ∧ y == 16 := by
  have hcheck : (hiddenPlan.toOption.any fun p => p.2.groups.any fun g =>
      (p.1.buffers p.2 g).toOption.any fun buffers =>
      (p.1.roleCode { target := .js } p.2 g buffers).toOption.any fun roles =>
      (roles.flatMap (·.2)).any fun stmt => (readStmt stmt).toOption.any (writesSlotEight p.2 g stmt)) =
        true := by
    decide +kernel
  have hvalues : (hiddenPlan.toOption.any fun p => (({} : Catalog).register p.1 userModule).toOption.any fun c =>
      (c.evaluate p.1.name [(1 : Float), 0] (fun _ => none) true).toOption.any (· == 0) &&
      (recurse (fun _ => none) (fun _ => none) 3 p.1 [(1 : Float), 0]).toOption.any (· == 16)) = true := by
    decide +kernel
  obtain ⟨⟨r, plan⟩, hrun, hcheck⟩ := exists_ok_of_any hcheck
  obtain ⟨_, hrun', hvalues⟩ := exists_ok_of_any hvalues
  cases hrun.symm.trans hrun'
  obtain ⟨g, hg, hcheck⟩ := List.any_eq_true.1 hcheck
  obtain ⟨buffers, hbuffers, hcheck⟩ := exists_ok_of_any hcheck
  obtain ⟨roles, hroles, hcheck⟩ := exists_ok_of_any hcheck
  obtain ⟨stmt, hstmt, hcheck⟩ := List.any_eq_true.1 hcheck
  obtain ⟨block, hread, hcheck⟩ := exists_ok_of_any hcheck
  obtain ⟨c, hc, hvalues⟩ := exists_ok_of_any hvalues
  rw [Bool.and_eq_true] at hvalues
  obtain ⟨x, hx, hzero⟩ := exists_ok_of_any hvalues.1
  obtain ⟨y, hy, hsixteen⟩ := exists_ok_of_any hvalues.2
  rw [writesSlotEight.eq_def] at hcheck
  split at hcheck
  · next name first stmts n start body =>
    simp only [Bool.and_eq_true, decide_eq_true_eq, beq_iff_eq] at hcheck
    obtain ⟨⟨⟨⟨hhidden, hroles'⟩, hextra⟩, hgo⟩, hrun⟩ := hcheck
    obtain ⟨b, hgo, rfl⟩ := exists_ok_of_any hgo
    obtain ⟨⟨t, v⟩, hrun, hlast⟩ := exists_ok_of_any hrun
    rw [Bool.and_eq_true] at hlast
    obtain rfl : v = none := Option.isNone_iff_eq_none.1 hlast.1
    replace hlast := hlast.2
    split at hlast
    · next slot e hwrite =>
      obtain ⟨_, hslot, hint⟩ := exists_ok_of_any hlast
      obtain ⟨z, rfl, hz⟩ := Value.exists_of_isInt hint
      refine ⟨r, plan, g, buffers, _, _, hrun', hg, hbuffers, ⟨⟨roles, hroles, hstmt⟩, nofun, hread⟩, hhidden,
        ?_, ⟨_, .loop .start hgo (.last hwrite hrun hslot), ?_⟩, c, x, y, hc, hx, hzero,
        Derivable.of_recurse hy, hsixteen⟩
      · exact {
          sized := by simp [Locals.read, Locals.find?, layerOneLocals]
          counts := isInt_ofInt (by decide)
          limit := fun _ => by rw [hextra]; decide
          unbracketed := by
            intro lr hlr expr hmax
            have hrole := List.mem_map_of_mem (f := LayerRule.role) hlr
            rw [hroles', hmax] at hrole
            simp at hrole }
      · rintro other ⟨_, k, hzk, hk, -, hlt⟩
        cases hzk
        have height := hz.toInt_eq
        rw [hk.toInt_eq] at height
        omega
    · cases hlast
  · cases hcheck

/-- A rule for the one slot `n/2`. -/
def halfSlotSteps : List Step :=
  [.validity ["t >= 0", "t <= n"], .base [("n", 0), ("t", 0)] (.number 1),
    .rule "n > 0 && t == n/2" "E[n-1, t]" none none]

/-- Whether a block writes a slot that is no integer in layer one, in the scope of an index that none of its
statements hides. -/
def writesHalfSlot (plan : LayerPlan) : Stmt String → List (Stmt Expression) → Bool
  | .block stmts, [.block [.index n e, .when c body]] =>
    decide (plan.aux ∉ "out" :: "N_VALUES" :: intermediates (.block stmts)) &&
    (runStmt Program.standardLimits emptyWorld (Locals.enter layerOneLocals [n])
      (.index n e)).toOption.any fun s => s.2.isNone && (emptyWorld.test s.1 c).toOption.any id &&
    (runStmts Program.standardLimits emptyWorld (Locals.enter s.1 (declared body))
      body.dropLast).toOption.any fun out => out.2.isNone &&
        match body.getLast? with
        | some (.write slot _) => (emptyWorld.eval out.1 slot).toOption.any fun
          | .num x => !isWhole x
          | _ => false
        | _ => false
  | _, _ => false

/-- **A slot may lie between two slots**: the one slot `n/2` of a role is no integer in layer one, where it is
written although it is no slot of the layer. -/
theorem half_slot_written : ∃ r plan g buffers stmt block,
    planOf halfSlotSteps = .ok (r, plan) ∧
    g ∈ plan.groups ∧ r.buffers plan g = .ok buffers ∧
    RoleBlock r { target := .js } plan g buffers stmt block ∧
    plan.aux ∉ "out" :: "N_VALUES" :: intermediates stmt ∧
    ∃ a, Accesses Program.standardLimits emptyWorld layerOneLocals block a ∧
      ∀ other, ¬ a.InBounds IsInt (r.fillBuffers (fun _ => none) plan g buffers) other 2 := by
  have hcheck : ((planOf halfSlotSteps).toOption.any fun p => p.2.groups.any fun g =>
      (p.1.buffers p.2 g).toOption.any fun buffers =>
      (p.1.roleCode { target := .js } p.2 g buffers).toOption.any fun roles =>
      (roles.flatMap (·.2)).any fun stmt => (readStmt stmt).toOption.any (writesHalfSlot p.2 stmt)) =
        true := by
    decide +kernel
  obtain ⟨⟨r, plan⟩, hrun, hcheck⟩ := exists_ok_of_any hcheck
  obtain ⟨g, hg, hcheck⟩ := List.any_eq_true.1 hcheck
  obtain ⟨buffers, hbuffers, hcheck⟩ := exists_ok_of_any hcheck
  obtain ⟨roles, hroles, hcheck⟩ := exists_ok_of_any hcheck
  obtain ⟨stmt, hstmt, hcheck⟩ := List.any_eq_true.1 hcheck
  obtain ⟨block, hread, hcheck⟩ := exists_ok_of_any hcheck
  rw [writesHalfSlot.eq_def] at hcheck
  split at hcheck
  · next stmts n e c body =>
    rw [Bool.and_eq_true, decide_eq_true_eq] at hcheck
    obtain ⟨hfree, hcheck⟩ := hcheck
    obtain ⟨⟨s, v⟩, hindex, hcheck⟩ := exists_ok_of_any hcheck
    simp only [Bool.and_eq_true] at hcheck
    obtain ⟨⟨hnone, htest⟩, hcheck⟩ := hcheck
    obtain rfl : v = none := Option.isNone_iff_eq_none.1 hnone
    obtain ⟨b, htest, rfl⟩ := exists_ok_of_any htest
    obtain ⟨⟨t, v⟩, hbody, hlast⟩ := exists_ok_of_any hcheck
    rw [Bool.and_eq_true] at hlast
    obtain rfl : v = none := Option.isNone_iff_eq_none.1 hlast.1
    replace hlast := hlast.2
    split at hlast
    · next slot e hwrite =>
      obtain ⟨v, hslot, hhalf⟩ := exists_ok_of_any hlast
      refine ⟨r, plan, g, buffers, _, _, hrun, hg, hbuffers, ⟨⟨roles, hroles, hstmt⟩, nofun, hread⟩, hfree,
        _, .block (.next hindex (.when htest (.last hwrite hbody hslot))), ?_⟩
      rintro other ⟨x, k, rfl, hk, hpos, hlt⟩
      have hwhole := hk.isWhole (by omega)
      simp [hwhole] at hhalf
    · cases hlast
  · cases hcheck

end Recurrence

end RecurrenceCompiler
