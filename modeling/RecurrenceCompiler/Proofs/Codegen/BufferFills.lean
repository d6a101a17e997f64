import RecurrenceCompiler.Proofs.Codegen.LayerCode
import RecurrenceCompiler.Proofs.Codegen.Lengths

/-!
# Filling buffers with other layers

The code of a group starts with one statement for each layer that it reads. The statement makes a buffer of zeros
that is long enough for both layers and has the function that computes layers fill it (`runStmt_previous`). After
all of them have run, each buffer holds its layer, and all other names are what they were (`runStmts_fills`).
-/

namespace RecurrenceCompiler

open Text Decimal Arith Script

namespace Script

/-! ## Buffers -/

/-- The names of the host that buffers are made with. -/
structure World.MakesBuffers (w : World Float) : Prop where
  array : w.names "Array" = .ok (.function .array)
  math : w.names "Math" = .ok (.record Value.mathRecord)
  largest : ∀ vs, w.value .largest vs =
    .ok (.num (Value.largest (Carrier.ofFloat (-(1.0 / 0.0))) (vs.map Value.toNumber)))

/-- The functions for layers, given the layer and the runtime variables: one knows the number of slots of the
layer, and the other fills a buffer of zeros with it. -/
structure World.Computes (w : World Float) (name : String) (args vars : List (Value Float)) (size : Int)
    (out : Nat → Float) : Prop where
  sized : ∃ f, w.names (name ++ "Size") = .ok (.function f) ∧ w.value f args = .ok (.num (ofInt size))
  filled : ∃ f, w.names name = .ok (.function f) ∧ ∀ length : Nat, size ≤ length → length < 2 ^ 32 → ∃ named,
    w.call f (args ++ [Value.slots length (fun _ => .num 0.0) []] ++ vars) =
      .ok ⟨.undefined, args ++ [Value.slots length (fun k => .num (out k)) named] ++ vars⟩

/-- An argument that has its value whatever one name stands for. If it is a name, it is another one. -/
structure PassesAs (w : World Float) (s : Locals Float) (hidden : String) (e : Expression) (v : Value Float) :
    Prop where
  value : ∀ t : Locals Float, (∀ n, n ≠ hidden → t.find? n = s.find? n) → w.eval t e = .ok v
  kept : ∀ n, e = .name n → n ≠ hidden ∧ s.find? n = some ⟨n, some v⟩

/-- What the statement that fills a buffer finds: the names that it uses are free, its arguments have values, and the
number of slots of the own layer is known. -/
structure ReadyToFill (w : World Float) (s : Locals Float) (q : PreviousLayer Expression)
    (args vars : List (Value Float)) (count : Int) : Prop where
  free : ∀ n ∈ ["Array", "Math", q.layer, q.layer ++ "Size"], n ∉ s.names
  mem : q.name ∈ s.names
  args : List.Forall₂ (PassesAs w s q.name) q.args args
  vars : List.Forall₂ (PassesAs w s q.name) (q.vars.map .name) vars
  count : s.read w.names "N_VALUES" = .ok (.num (ofInt count))

section
variable {w : World Float} {s t : Locals Float} {q : PreviousLayer Expression} {args vars : List (Value Float)}
  {size count : Int} {out : Nat → Float}

theorem evalAll_of_passesAs {hidden : String} {es : List Expression} (h : List.Forall₂ (PassesAs w s hidden) es args)
    (ht : ∀ n, n ≠ hidden → t.find? n = s.find? n) :
    Expression.evalAll (t.read w.names) w.value es = .ok args :=
  Recurrence.evalAll_of_forall₂ (h.imp fun _ _ he => he.value t ht)

theorem ReadyToFill.read_free (h : ReadyToFill w s q args vars count) {n : String}
    (hn : n ∈ ["Array", "Math", q.layer, q.layer ++ "Size"]) : s.read w.names n = w.names n := by
  rw [Locals.read, Locals.find?_eq_none (h.free n hn)]

/-- The length of a buffer is known. -/
theorem ReadyToFill.eval_length (h : ReadyToFill w s q args vars count) (hhost : w.MakesBuffers)
    (hcomputes : w.Computes q.layer args vars size out) (hsize : 0 ≤ size) (hcount : 0 ≤ count) (hextra : 0 ≤ q.extra)
    (hlimit : max size count + q.extra < 2 ^ 32) :
    ∃ z, w.eval s (PreviousLayer.length q) = .ok (.num z) ∧ IsInt z (max size count + q.extra) := by
  obtain ⟨f, hname, hvalue⟩ := hcomputes.sized
  have hother : w.eval s (PreviousLayer.size q) = .ok (.num (ofInt size)) := by
    rw [PreviousLayer.size, World.eval, Expression.eval, Expression.eval, h.read_free (by simp), hname,
      evalAll_of_passesAs h.args fun _ _ => rfl]
    exact hvalue
  have hmax : (Expression.call (.member (.name "Math") "max") [PreviousLayer.size q, .name "N_VALUES"]).eval
      (s.read w.names) w.value =
        .ok (.num (Value.largest (Carrier.ofFloat (-(1.0 / 0.0))) [ofInt size, ofInt count])) := by
    rw [World.eval] at hother
    rw [Expression.eval, Expression.eval, Expression.eval, h.read_free (by simp), hhost.math, Expression.evalAll,
      hother, Expression.evalAll, Expression.eval, h.count, Expression.evalAll]
    exact hhost.largest _
  have hint : IsInt (Value.largest (Carrier.ofFloat (-(1.0 / 0.0))) [ofInt size, ofInt count]) (max size count) :=
    isInt_largest (isInt_ofInt (by omega)) (isInt_ofInt (by omega))
  refine ⟨_, ?_, hint.add (isInt_ofInt (by omega)) (by omega)⟩
  rw [PreviousLayer.length, World.eval, Expression.eval_binary hmax rfl]
  rfl

/-- A buffer of zeros is made. -/
theorem ReadyToFill.eval_buffer (h : ReadyToFill w s q args vars count) (hhost : w.MakesBuffers)
    (hcomputes : w.Computes q.layer args vars size out) (hsize : 0 ≤ size) (hcount : 0 ≤ count) (hextra : 0 ≤ q.extra)
    (hlimit : max size count + q.extra < 2 ^ 32) : w.eval s (PreviousLayer.buffer q) =
      .ok (Value.slots (max size count + q.extra).toNat (fun _ => .num 0.0) []) := by
  obtain ⟨z, hlength, hz⟩ := h.eval_length hhost hcomputes hsize hcount hextra hlimit
  have harray : s.read w.names "Array" = .ok (.function .array) := (h.read_free (by simp)).trans hhost.array
  have hzeros := zeros_eq hz (by omega)
  rw [if_pos (by omega), Value.ofItems_replicate] at hzeros
  rw [World.eval] at hlength
  rw [PreviousLayer.buffer_eq, World.eval, Expression.eval, Expression.eval, harray, hlength]
  exact hzeros

/-- An argument that is not the buffer has its value whatever the buffer holds. -/
theorem PassesAs.find?_assign {hidden : String} {e : Expression} {x : Value Float} (h : PassesAs w s hidden e x)
    (v : Value Float) : ∀ n, e = .name n → (s.assign hidden v).find? n = some ⟨n, some x⟩ := by
  intro n hn
  obtain ⟨hne, hfind⟩ := h.kept n hn
  rw [Locals.find?_assign_of_ne hne, hfind]

/-- A buffer is passed on with the other arguments. -/
theorem ReadyToFill.evalAll_fill (h : ReadyToFill w s q args vars count) (v : Value Float) :
    Expression.evalAll ((s.assign q.name v).read w.names) w.value (q.args ++ [.name q.name] ++ q.vars.map .name) =
      .ok (args ++ [v] ++ vars) := by
  refine Recurrence.evalAll_of_forall₂ (List.rel_append (List.rel_append ?_ (.cons ?_ .nil)) ?_)
  · exact h.args.imp fun _ _ he => he.value _ fun _ => Locals.find?_assign_of_ne
  · exact Locals.read_assign_self h.mem
  · exact h.vars.imp fun _ _ he => he.value _ fun _ => Locals.find?_assign_of_ne

/-- What the function leaves in the buffer is taken back. -/
theorem ReadyToFill.takeBack_fill (h : ReadyToFill w s q args vars count) (v filled : Value Float) :
    (s.assign q.name v).takeBack (q.args ++ [.name q.name] ++ q.vars.map .name) (args ++ [filled] ++ vars) =
      s.assign q.name filled := by
  rw [List.append_assoc, List.append_assoc, Locals.takeBack_append (h.args.imp fun _ _ he => he.find?_assign v),
    List.singleton_append, List.singleton_append, Locals.takeBack, Locals.assign_assign]
  have hrest := Locals.takeBack_append (h.vars.imp fun _ _ he => he.find?_assign filled) [] []
  rwa [List.append_nil, List.append_nil] at hrest

/-- **A buffer is filled with another layer.** It has as many slots as the larger of the two layers, and some
more. -/
theorem ReadyToFill.runStmt_previous (h : ReadyToFill w s q args vars count) (limits : Limits) (hhost : w.MakesBuffers)
    (hcomputes : w.Computes q.layer args vars size out) (hsize : 0 ≤ size) (hcount : 0 ≤ count) (hextra : 0 ≤ q.extra)
    (hlimit : max size count + q.extra < 2 ^ 32) : ∃ named, runStmt limits w s (.previous q) = .ok (s.assign q.name
      (Value.slots (max size count + q.extra).toNat (fun k => .num (out k)) named), none) := by
  have hbuffer := h.eval_buffer hhost hcomputes hsize hcount hextra hlimit
  obtain ⟨f, hname, hcall⟩ := hcomputes.filled
  obtain ⟨named, hcall⟩ := hcall (max size count + q.extra).toNat (by omega) (by omega)
  generalize Value.slots (max size count + q.extra).toNat (fun _ => .num 0.0) [] = zeros at hbuffer hcall
  generalize hfilled : Value.slots (max size count + q.extra).toNat (fun k => .num (out k)) named = filled at hcall
  have hcallee : (s.assign q.name zeros).read w.names q.layer = .ok (.function f) := by
    rw [Locals.read, Locals.find?_eq_none, hname]
    rw [Locals.names_assign]
    exact h.free _ (by simp)
  have hrun := World.run_call hcallee (h.evalAll_fill zeros) hcall
  rw [h.takeBack_fill] at hrun
  refine ⟨named, ?_⟩
  rw [hfilled, runStmt, hbuffer]
  dsimp only [bind, Except.bind]
  rw [PreviousLayer.fill, hrun]
  rfl

end

end Script

namespace Recurrence

variable {r : Recurrence} {o : CodegenOptions} {resolve : Resolver} {plan : LayerPlan} {g : LayerGroup}
  {buffers : List Buffer}

/-! ## The buffers of a group -/

/-- How a buffer is filled. -/
def bufferScript (r : Recurrence) (resolve : Resolver) (plan : LayerPlan) (g : LayerGroup) (b : Buffer) :
    PreviousLayer Expression where
  name := b.name
  layer := layerName (b.target.getD r.name)
  args := (plan.layerIndices.zip b.shifts).map fun (i, s) => .shifted i s
  vars := r.callVars resolve b.target
  extra := extraSlots plan g

/-- The statements that fill the buffers of a group, as a script. -/
def fillScripts (r : Recurrence) (resolve : Resolver) (plan : LayerPlan) (g : LayerGroup) (buffers : List Buffer) :
    List (Stmt Expression) :=
  if buffers.isEmpty then [] else buffers.map (fun b => .previous (r.bufferScript resolve plan g b)) ++ [.blank]

/-- **Buffers are filled as they are read from the code.** -/
theorem Scripted.readStmts_fillBuffers (h : r.Scripted) (hindices : plan.layerIndices ⊆ r.indices) :
    readStmts (r.fillBuffers resolve plan g buffers) = .ok (r.fillScripts resolve plan g buffers) := by
  have hargs (b : Buffer) : ((plan.layerIndices.zip b.shifts).map fun p => shiftedIndex p.1 p.2).mapM readText =
      .ok ((plan.layerIndices.zip b.shifts).map fun p => .shifted p.1 p.2) := by
    have hread : ∀ p ∈ plan.layerIndices.zip b.shifts, ∃ x, readText (shiftedIndex p.1 p.2) = .ok x ∧
        id x = Expression.shifted p.1 p.2 := fun p hp => by
      have hparam : p.1 ∈ r.params := List.mem_append_left _ (hindices (List.of_mem_zip hp).1)
      exact ⟨_, (isText_shiftedIndex (h.isText_param hparam) p.2 (by decide : 1 ≤ 5)).cond.readText, rfl⟩
    obtain ⟨xs, hxs, hmap⟩ := exists_mapM_map hread
    rw [List.mapM_map, ← hmap, List.map_id]
    exact hxs
  rw [fillBuffers, fillScripts]
  dsimp only
  rw [List.isEmpty_map]
  split
  · rfl
  · refine readStmts_append ?_ rfl
    clear * - hargs
    induction buffers with
    | nil => rfl
    | cons b bs ih =>
      rw [List.map_cons, List.map_cons, readStmts, readStmt, hargs b]
      dsimp only [bind, Except.bind]
      rw [ih]
      rfl

/-- The code of a group fills the buffers and then runs the blocks of the roles. -/
theorem Scripted.exists_of_groupCode (h : r.Scripted) (hindices : plan.layerIndices ⊆ r.indices)
    {ss : List Strategy} {stmts : List (Stmt String)} (hcode : r.groupCode o resolve plan g = .ok (ss, stmts))
    {code : List (Stmt Expression)} (hread : readStmts stmts = .ok code) : ∃ buffers roles rest,
      r.buffers plan g = .ok buffers ∧ r.roleCode o plan g buffers = .ok roles ∧
        readStmts (roles.flatMap (·.2)) = .ok rest ∧ code = r.fillScripts resolve plan g buffers ++ rest := by
  obtain ⟨buffers, hbuffers, hcode⟩ := bind_ok hcode
  obtain ⟨roles, hroles, hcode⟩ := bind_ok hcode
  cases hcode
  obtain ⟨front, back, hfront, hback, rfl⟩ := exists_of_readStmts_append hread
  rw [h.readStmts_fillBuffers hindices, Except.ok.injEq] at hfront
  exact ⟨buffers, roles, back, hbuffers, hroles, hback, hfront ▸ rfl⟩

/-! ## The layers that a group reads -/

/-- The layer that a call reads. -/
def layerOfCall (r : Recurrence) (plan : LayerPlan) (layer : String → Int) (c : Call) : String → Int :=
  fun i => if i ∈ plan.layerIndices then layer i + c.shiftAt (r.indices.idxOf i) else 0

/-- The values of the layer indices as arguments. -/
def layerNumbers (plan : LayerPlan) (layer : String → Int) : List (Value Float) :=
  plan.layerIndices.map fun i => .num (ofInt (layer i))

section
variable {layer : String → Int} {size : Int} {vars : RuntimeVars Float} {w : World Float} {s t : Locals Float}

/-- A layer is known from the shifts of the layer indices. -/
theorem layerOfCall_congr {c c' : Call} (h : r.layerShifts plan.layerIndices c = r.layerShifts plan.layerIndices c') :
    r.layerOfCall plan layer c = r.layerOfCall plan layer c' := by
  funext i
  rw [layerOfCall, layerOfCall]
  split
  · next hi => rw [List.map_inj_left.1 h i hi]
  · rfl

/-- The layer that is passed on is the one that the call reads. -/
theorem zip_layerShifts (c : Call) :
    ((plan.layerIndices.zip (r.layerShifts plan.layerIndices c)).map fun p => Value.num (ofInt (layer p.1 + p.2))) =
      layerNumbers plan (r.layerOfCall plan layer c) := by
  have hself : ∀ is : List String, is ⊆ plan.layerIndices →
      ((is.zip (is.map fun i => c.shiftAt (r.indices.idxOf i))).map fun p => Value.num (ofInt (layer p.1 + p.2))) =
        is.map fun i => .num (ofInt (r.layerOfCall plan layer c i)) := by
    intro is his
    induction is with
    | nil => rfl
    | cons i is ih =>
      obtain ⟨hi, his⟩ := List.cons_subset.1 his
      rw [List.map_cons, List.zip_cons_cons, List.map_cons, List.map_cons, ih his, layerOfCall, if_pos hi]
  exact hself _ (List.Subset.refl _)

/-- The functions around the code of a group compute the layers that it reads. -/
structure ComputesReads (r : Recurrence) (plan : LayerPlan) (g : LayerGroup) (layer : String → Int) (size : Int)
    (vars : RuntimeVars Float) (w : World Float) (sizes : (String → Int) → Int)
    (outs : (String → Int) → Nat → Float) : Prop where
  range : ∀ c ∈ g.calls, 0 ≤ sizes (r.layerOfCall plan layer c) ∧
    max (sizes (r.layerOfCall plan layer c)) size + extraSlots plan g < 2 ^ 32
  computes : ∀ c ∈ g.calls, w.Computes (layerName r.name) (layerNumbers plan (r.layerOfCall plan layer c))
    (r.runtimeVars.map vars.script) (sizes (r.layerOfCall plan layer c)) (outs (r.layerOfCall plan layer c))

/-! ## Running the statements that fill buffers -/

/-- A function keeps what it has for a layer if its parameters and the number of slots keep their values. -/
theorem HasRuleLayer.congr (hs : r.HasRuleLayer plan layer size vars w s) (hindices : plan.layerIndices ⊆ r.indices)
    (hnames : t.names = s.names) (hsame : ∀ n, n ∈ r.params ∨ n = "N_VALUES" → t.find? n = s.find? n) :
    r.HasRuleLayer plan layer size vars w t where
  index i hi := by
    rw [hsame i (.inl (List.mem_append_left _ (hindices hi)))]
    exact hs.index i hi
  count := by
    rw [Locals.read_congr (hsame "N_VALUES" (.inr rfl))]
    exact hs.count
  var v hv := by
    rw [hsame v (.inl (List.mem_append_right _ hv))]
    exact hs.var v hv
  aux := hnames ▸ hs.aux
  free n hn := hnames ▸ hs.free n hn

/-- A shifted layer index is passed on. -/
theorem HasRuleLayer.passes_index (hs : r.HasRuleLayer plan layer size vars w s) (hw : w.Elementary) {i : String}
    (hi : i ∈ plan.layerIndices) {hidden : String} (hne : i ≠ hidden) (hhidden : ¬ IsElementary hidden)
    (hlayer : (layer i).natAbs ≤ 2 ^ 52) {shift : Int} (hshift : shift.natAbs ≤ 2 ^ 52) :
    PassesAs w s hidden (.shifted i shift) (.num (ofInt (layer i + shift))) where
  value t ht := by
    have hfree {n : String} (hn : IsElementary n) : t.read w.names n = w.names n := by
      rw [Locals.read, ht n fun heq => hhidden (heq ▸ hn), Locals.find?_eq_none (hs.free n (.inl hn))]
    have hnumbers : KnowsNumbers (t.read w.names) :=
      ⟨(hfree (.inr (.inl rfl))).trans hw.numbers.nan, (hfree (.inr (.inr rfl))).trans hw.numbers.infinity⟩
    rw [World.eval, eval_shifted hnumbers w.value (Locals.read_of_find? ((ht i hne).trans (hs.index i hi)))
      (isNegativeZero_ofInt _), ofInt_add (by omega) (by omega) (by omega)]
  kept n hn := by
    rw [Expression.shifted] at hn
    split at hn
    · next hzero =>
      cases hn
      rw [beq_iff_eq.1 hzero, Int.add_zero]
      exact ⟨hne, hs.index i hi⟩
    · split at hn <;> cases hn

/-- A runtime variable is passed on. -/
theorem HasRuleLayer.passes_var (hs : r.HasRuleLayer plan layer size vars w s) {v : String} (hv : v ∈ r.runtimeVars)
    {hidden : String} (hne : v ≠ hidden) : PassesAs w s hidden (.name v) (vars.script v) where
  value t ht := Locals.read_of_find? ((ht v hne).trans (hs.var v hv))
  kept n hn := by
    cases hn
    exact ⟨hne, hs.var v hv⟩

/-- A buffer for a layer that a group reads of the recurrence itself. Its name stands for nothing else. -/
structure Fillable (r : Recurrence) (plan : LayerPlan) (g : LayerGroup) (b : Buffer) : Prop where
  fresh : b.name ∉ r.params ∧ b.name ≠ "N_VALUES" ∧ ¬ IsElementary b.name
  own : b.target = none
  call : ∃ c ∈ g.calls, b.shifts = r.layerShifts plan.layerIndices c

theorem Fillable.layer_bufferScript {b : Buffer} (h : r.Fillable plan g b) (resolve : Resolver) :
    (r.bufferScript resolve plan g b).layer = layerName r.name := by
  rw [bufferScript, h.own]
  rfl

/-- The buffers of a group that calls only its own recurrence. -/
theorem fillable_of_buffers (h : r.buffers plan g = .ok buffers) (hself : ∀ c ∈ g.calls, r.isSelf c = true)
    (hfresh : ∀ b ∈ buffers, b.name ∉ r.params ∧ b.name ≠ "N_VALUES" ∧ ¬ IsElementary b.name) :
    ∀ b ∈ buffers, r.Fillable plan g b := by
  intro b hb
  obtain ⟨signatures, -, hcollected, -⟩ := buffers_eq_ok h
  obtain ⟨place, hplace⟩ := hcollected b hb
  obtain ⟨c, hc, -, htarget, hshifts⟩ := hplace.call
  refine ⟨hfresh b hb, ?_, c, hc, hshifts.symm⟩
  rw [← htarget, foreignTarget, if_pos (hself c hc)]

/-- After buffers have been filled, each of them holds the layer of the calls that it is for, and all other names are
what they were. -/
structure HoldsLayers (r : Recurrence) (plan : LayerPlan) (g : LayerGroup) (layer : String → Int) (size : Int)
    (sizes : (String → Int) → Int) (outs : (String → Int) → Nat → Float) (buffers : List Buffer)
    (s t : Locals Float) : Prop where
  names : t.names = s.names
  others : ∀ n, n ∉ buffers.map (·.name) → t.find? n = s.find? n
  held : ∀ b ∈ buffers, ∀ c, b.shifts = r.layerShifts plan.layerIndices c → ∃ named,
    t.find? b.name = some ⟨b.name, some (Value.slots
      (max (sizes (r.layerOfCall plan layer c)) size + extraSlots plan g).toNat
      (fun k => .num (outs (r.layerOfCall plan layer c) k)) named)⟩

variable {sizes : (String → Int) → Int} {outs : (String → Int) → Nat → Float}

/-- The statement that fills a buffer finds what it needs. -/
theorem HasRuleLayer.readyToFill (hs : r.HasRuleLayer plan layer size vars w s) (hw : w.Elementary)
    (hindices : plan.layerIndices ⊆ r.indices) (hlayer : ∀ i ∈ plan.layerIndices, (layer i).natAbs ≤ 2 ^ 52)
    {b : Buffer} (hb : r.Fillable plan g b) {c : Call} (hcall : b.shifts = r.layerShifts plan.layerIndices c)
    (hshifts : ∀ i, (c.shiftAt i).natAbs ≤ 2 ^ 52)
    (hfree : ∀ n ∈ ["Array", "Math", layerName r.name, layerName r.name ++ "Size"], n ∉ s.names)
    (hmem : b.name ∈ s.names) : ReadyToFill w s (r.bufferScript resolve plan g b)
      (layerNumbers plan (r.layerOfCall plan layer c)) (r.runtimeVars.map vars.script) size := by
  obtain ⟨hparam, hcount, helementary⟩ := hb.fresh
  have hne {n : String} (hn : n ∈ r.params) : n ≠ b.name := fun heq => hparam (heq ▸ hn)
  have hvars : (r.bufferScript resolve plan g b).vars = r.runtimeVars := by
    rw [bufferScript, hb.own]
    rfl
  refine ⟨by rwa [hb.layer_bufferScript], hmem, ?_, ?_, hs.count⟩
  · rw [← zip_layerShifts, bufferScript, hcall, List.forall₂_map_left_iff, List.forall₂_map_right_iff,
      List.forall₂_same]
    intro p hp
    obtain ⟨hi, hshift⟩ := List.of_mem_zip hp
    obtain ⟨j, -, hj⟩ := List.mem_map.1 hshift
    exact hs.passes_index hw hi (hne (List.mem_append_left _ (hindices hi))) helementary (hlayer _ hi)
      (hj ▸ hshifts _)
  · rw [hvars, List.forall₂_map_left_iff, List.forall₂_map_right_iff, List.forall₂_same]
    exact fun v hv => hs.passes_var hv (hne (List.mem_append_right _ hv))

/-- **The buffers are filled one after the other.** -/
theorem ComputesReads.runStmts_fills (h : r.ComputesReads plan g layer size vars w sizes outs) (resolve : Resolver)
    (limits : Limits) (hw : w.Elementary) (hhost : w.MakesBuffers) (hindices : plan.layerIndices ⊆ r.indices)
    (hlayer : ∀ i ∈ plan.layerIndices, (layer i).natAbs ≤ 2 ^ 52)
    (hshifts : ∀ c ∈ g.calls, ∀ i, (c.shiftAt i).natAbs ≤ 2 ^ 52) (hpos : 0 ≤ size) {bs : List Buffer}
    (hnodup : (bs.map (·.name)).Nodup) (hbs : ∀ b ∈ bs, r.Fillable plan g b)
    (hs : r.HasRuleLayer plan layer size vars w s)
    (hfree : ∀ n ∈ ["Array", "Math", layerName r.name, layerName r.name ++ "Size"], n ∉ s.names)
    (hmem : ∀ b ∈ bs, b.name ∈ s.names) :
    ∃ t, runStmts limits w s (bs.map fun b => .previous (r.bufferScript resolve plan g b)) = .ok (t, none) ∧
      r.HoldsLayers plan g layer size sizes outs bs s t := by
  induction bs generalizing s with
  | nil => exact ⟨s, rfl, rfl, fun _ _ => rfl, by simp⟩
  | cons b bs ih =>
    rw [List.forall_mem_cons] at hbs hmem
    rw [List.map_cons, List.nodup_cons] at hnodup
    obtain ⟨c, hc, hcall⟩ := hbs.1.call
    have hready : ReadyToFill w s (r.bufferScript resolve plan g b) (layerNumbers plan (r.layerOfCall plan layer c))
        (r.runtimeVars.map vars.script) size :=
      hs.readyToFill hw hindices hlayer hbs.1 hcall (hshifts c hc) hfree hmem.1
    have hcomputes := h.computes c hc
    rw [← hbs.1.layer_bufferScript resolve] at hcomputes
    obtain ⟨named, hrun⟩ := hready.runStmt_previous limits hhost hcomputes (h.range c hc).1 hpos
      (extraSlots_nonneg plan g) (h.range c hc).2
    change runStmt limits w s (.previous (r.bufferScript resolve plan g b)) = .ok (s.assign b.name (Value.slots
      (max (sizes (r.layerOfCall plan layer c)) size + extraSlots plan g).toNat
      (fun k => .num (outs (r.layerOfCall plan layer c) k)) named), none) at hrun
    generalize htable : Value.slots (max (sizes (r.layerOfCall plan layer c)) size + extraSlots plan g).toNat
      (fun k => .num (outs (r.layerOfCall plan layer c) k)) named = table at hrun
    have hnames : (s.assign b.name table).names = s.names := Locals.names_assign ..
    have hkept : ∀ n, n ∈ r.params ∨ n = "N_VALUES" → (s.assign b.name table).find? n = s.find? n := by
      obtain ⟨hparam, hcount, -⟩ := hbs.1.fresh
      rintro n (hn | rfl)
      · exact Locals.find?_assign_of_ne fun heq => hparam (heq ▸ hn)
      · exact Locals.find?_assign_of_ne hcount.symm
    obtain ⟨t, hrest, hheld⟩ := ih hnodup.2 hbs.2 (hs.congr hindices hnames hkept) (hnames ▸ hfree) (hnames ▸ hmem.2)
    refine ⟨t, ?_, hheld.names.trans hnames, fun n hn => ?_, List.forall_mem_cons.2 ⟨fun c' hcall' => ⟨named, ?_⟩,
      hheld.held⟩⟩
    · rw [List.map_cons, runStmts, hrun]
      exact hrest
    · rw [List.map_cons, List.mem_cons, not_or] at hn
      rw [hheld.others n hn.2, Locals.find?_assign_of_ne hn.1]
    · rw [layerOfCall_congr (hcall'.symm.trans hcall), hheld.others _ hnodup.1, htable,
        Locals.find?_assign_self hmem.1]

end

end Recurrence

end RecurrenceCompiler
