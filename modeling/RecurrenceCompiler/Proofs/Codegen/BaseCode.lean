import RecurrenceCompiler.Codegen.Layered
import RecurrenceCompiler.Proofs.Codegen.BaseLayers
import RecurrenceCompiler.Proofs.Codegen.RenderedTexts
import RecurrenceCompiler.Proofs.Codegen.ScriptTexts
import RecurrenceCompiler.Proofs.Decimal.Positional
import RecurrenceCompiler.Proofs.Recurrence.Fixing
import RecurrenceCompiler.Proofs.Script.Slots

/-!
# The code of base layers

The value of a base case is written with the layer indices fixed at the values of the layer, and with the
auxiliary index fixed too if the base case binds it (`Recurrence.written`). Where the layer is computed, the
text has the value of the base case at the point of the slot (`Scripted.eval_written`).
-/

namespace RecurrenceCompiler

open Text Decimal Arith Script

/-! ## Leaves with indices fixed -/

namespace Expr

/-- A leaf where indices may be fixed: outside index arithmetic and table indices it has none. -/
inductive Fixable (indices : List String) : Expr → Prop
  | number (x : Float) : Fixable indices (.number x)
  | text {t : String} : (∀ n ∈ pieceNames t.toList, n ∉ indices) → Fixable indices (.var t)
  | index {t : String} : Fixable indices (.index t)
  | lookup {table i : String} : Fixable indices (.lookup table i)

variable {indices : List String} {l : Expr}

theorem Fixable.substitute (h : Fixable indices l) (value : String → Option String) :
    Fixable indices (l.substitute value) := by
  cases h with
  | number x => exact .number x
  | text ht => exact .text ht
  | index => exact .index
  | lookup => exact .lookup

/-- **A leaf keeps its value where indices are fixed at what they are bound to.** Since it has a value, it
calls no index. -/
theorem Fixable.carries (h : Fixable indices l) {f : Fixing} (hf : ∀ n x, f.value n = some x → n ∈ indices)
    (helementary : ∀ fn : MathFn, fn.name ∉ indices) {s : Scope Float} (call : Call → Except Error Float) :
    Carries (l.eval (s.fix f) call) ((l.substitute f.text).eval s call) := by
  have hnone {n : String} (hn : n ∉ indices) : f.value n = none := by
    cases hx : f.value n with
    | none => rfl
    | some x => exact absurd (hf n x hx) hn
  have huncalled {t : String} {v : Float} (hv : Arith.eval (f.bind s.value) t = .ok v) :
      ∀ n ∈ functionsIn t, f.value n = none := by
    intro n hn
    obtain ⟨fn, hfn⟩ := Option.isSome_iff_exists.1 ((eval_eq_ok_iff.1 hv).elementary n hn)
    obtain rfl := ofName?_eq_some hfn
    exact hnone (helementary fn)
  cases h with
  | number => exact .refl _
  | text ht =>
    rw [Expr.substitute, Expr.eval, Expr.eval, orThrow_eq, orThrow_eq]
    exact carries_eval_bind fun n hn => hnone (ht n hn)
  | @index t =>
    rw [Expr.substitute, Expr.eval, Expr.eval, orThrow_eq, orThrow_eq]
    intro v hv
    exact Arith.eval_substitute hv (huncalled hv)
  | @lookup table i =>
    rw [Expr.substitute, Expr.eval, Expr.eval, orThrow_eq, orThrow_eq]
    intro v hv
    obtain ⟨-, k, -, -, hk, -⟩ := exists_entry_of_evalLookup hv
    exact carries_evalLookup (huncalled hk) v hv

end Expr

namespace Recurrence

variable {r : Recurrence}

/-- Indices may be fixed in a leaf that is an operand. -/
theorem Scripted.fixable_leaf (h : r.Scripted) {e l : Expr} (he : e ∈ r.exprs) (hl : l ∈ e.leaves)
    (hoperand : r.IsOperand l) : l.Fixable r.indices := by
  cases (h.built.reported.exprs _ he).kept l hl with
  | number x => exact .number x
  | @runtime v hv =>
    refine .text fun n hn => ?_
    rw [pieceNames_name (h.built.wellFormed.runtime v hv), List.mem_singleton, String.ofList_toList] at hn
    exact hn ▸ h.built.runtime_not_index hv
  | text _ hnames => exact .text hnames
  | index => exact .index
  | lookup => exact .lookup
  | call => cases hoperand

/-- Indices may be fixed in the value of a base case. -/
theorem Scripted.fixable_value (h : r.Scripted) {b : BaseCase} (hb : b ∈ r.bases) {l : Expr}
    (hl : l ∈ b.value.leaves) : l.Fixable r.indices :=
  h.fixable_leaf (value_mem_exprs hb) hl (h.isOperand_value hb hl)

/-- The value of a base case, or a part of it, as it is written in the code of a layer. -/
def written (plan : LayerPlan) (l : BaseLayer) (b : BaseCase) (e : Expr) : Expr :=
  let e := e.substitute (Json.getField? (plan.layerIndices.zip (l.values.map Whole.text)))
  match b.slots[plan.auxSlot]?.join with
  | none => e
  | some a => e.substitute (fixed plan.aux a.text)

theorem leaves_written (plan : LayerPlan) (l : BaseLayer) (b : BaseCase) (e : Expr) :
    (written plan l b e).leaves = e.leaves.map (written plan l b) := by
  unfold written
  cases b.slots[plan.auxSlot]?.join with
  | none => exact Expr.leaves_substitute _ e
  | some a =>
    dsimp only
    rw [Expr.leaves_substitute, Expr.leaves_substitute, List.map_map]
    rfl

section
variable {plan : LayerPlan} {l : BaseLayer} {b : BaseCase}

/-- The leaves of what is written are operands where its texts can be read. -/
theorem Scripted.isOperand_written (h : r.Scripted) (hb : b ∈ r.bases)
    (hread : ∀ t ∈ (written plan l b b.value).texts, Readable t) :
    ∀ leaf ∈ (written plan l b b.value).leaves, r.IsOperand leaf := by
  intro leaf hleaf
  rw [leaves_written, List.mem_map] at hleaf
  obtain ⟨leaf, hleaf, rfl⟩ := hleaf
  have hread : ∀ t, (written plan l b leaf).leafText? = some t → Readable t := by
    intro t ht
    refine hread t (List.mem_filterMap.2 ⟨_, ?_, ht⟩)
    rw [leaves_written]
    exact List.mem_map_of_mem hleaf
  unfold written at hread ⊢
  generalize b.slots[plan.auxSlot]?.join = slot at hread ⊢
  cases slot with
  | none | some =>
    cases h.isOperand_value hb hleaf with
    | number hx => exact .number hx
    | param hn => exact .param hn
    | name hid hn => exact .name hid hn
    | paren hbal ht => exact .paren hbal ht
    | index => exact .index (hread _ rfl)
    | lookup htable => exact .lookup htable (hread _ rfl)

theorem Scripted.regular_written (h : r.Scripted) (hb : b ∈ r.bases) :
    (written plan l b b.value).Regular := by
  have hvalue := (h.balanced.values b hb).regular
  unfold written
  cases b.slots[plan.auxSlot]?.join with
  | none => exact hvalue.substitute
  | some => exact hvalue.substitute.substitute

/-! ## The value of what is written -/

/-- The layer indices fixed at the values of a layer. -/
def layerFixing (plan : LayerPlan) (l : BaseLayer) (h : ∀ w ∈ l.values, w.toInt.natAbs < 2 ^ 53) : Fixing :=
  .ofInts (plan.layerIndices.zip (l.values.map Whole.toInt)) fun p hp => by
    obtain ⟨w, hw, heq⟩ := List.mem_map.1 (List.of_mem_zip hp).2
    exact heq ▸ (h w hw).le

theorem layerFixing_value {h : ∀ w ∈ l.values, w.toInt.natAbs < 2 ^ 53} (n : String) :
    (layerFixing plan l h).value n =
      (Json.getField? (plan.layerIndices.zip l.values) n).map fun w => ofInt w.toInt := by
  have hfield : (layerFixing plan l h).value n =
      (Json.getField? (plan.layerIndices.zip (l.values.map Whole.toInt)) n).map ofInt := by
    rw [Json.getField?, Option.map_map]
    rfl
  rw [hfield, Json.getField?_zip_map, Option.map_map]
  rfl

/-- The texts that are written for layer indices are those of the values. -/
theorem layerFixing_text {h : ∀ w ∈ l.values, w.toInt.natAbs < 2 ^ 53} :
    (layerFixing plan l h).text = Json.getField? (plan.layerIndices.zip (l.values.map Whole.text)) := by
  funext n
  rw [Fixing.text, layerFixing_value, Json.getField?_zip_map, Option.map_map]
  refine Option.map_congr fun w hw => ?_
  exact numberText_ofInt (h w (Json.mem_of_getField?_zip hw).2)

/-- The auxiliary index fixed at what a base case binds it to. -/
def auxFixing (aux : String) (a : Whole) (h : a.toInt.natAbs < 2 ^ 53) : Fixing :=
  .ofInts [(aux, a.toInt)] fun p hp => by
    rw [List.mem_singleton.1 hp]
    exact h.le

theorem auxFixing_value {aux : String} {a : Whole} {h : a.toInt.natAbs < 2 ^ 53} (n : String) :
    (auxFixing aux a h).value n = if n = aux then some (ofInt a.toInt) else none := by
  rw [auxFixing, Fixing.ofInts]
  dsimp only
  rw [List.find?_cons]
  by_cases hn : n = aux
  · simp [hn]
  · rw [if_neg hn, beq_eq_false_iff_ne.2 (Ne.symm hn)]
    rfl

theorem auxFixing_text {aux : String} {a : Whole} {h : a.toInt.natAbs < 2 ^ 53} :
    (auxFixing aux a h).text = fixed aux a.text := by
  funext n
  rw [Fixing.text, auxFixing_value, fixed]
  by_cases hn : n = aux
  · rw [if_pos hn, if_pos (beq_iff_eq.2 hn), Option.map_some, numberText_ofInt h, Whole.text]
  · rw [if_neg hn, if_neg (mt beq_iff_eq.1 hn), Option.map_none]

/-- Names that are fixed at what they are bound to. -/
theorem fix_only {s : Scope Float} {f : Fixing} {names names' : List String}
    (hnames : ∀ n, n ∈ names' ↔ n ∈ names ∨ (f.value n).isSome)
    (hvalues : ∀ n x, f.value n = some x → s.value n = some x) : (s.only names).fix f = s.only names' := by
  have hvalue : f.bind (s.only names).value = (s.only names').value := by
    funext n
    rw [Fixing.bind, Scope.only, Scope.only]
    dsimp only
    cases hx : f.value n with
    | none => simp [hnames, hx]
    | some x => simp [hnames, hx, hvalues n x hx]
  rw [Scope.fix, hvalue]
  rfl

/-- Where it is fixed, the auxiliary index need not be bound. -/
theorem fix_aux {aux : String} (haux : aux ∈ r.params) {w : Whole} (hw : w.toInt.natAbs < 2 ^ 53)
    {s : Scope Float} (hat : s.value aux = some (ofInt w.toInt)) :
    (s.only (r.params.filter (· != aux))).fix (auxFixing aux w hw) = s.only r.params := by
  refine fix_only (fun n => ?_) fun n x hx => ?_
  · rw [auxFixing_value, List.mem_filter, bne_iff_ne]
    by_cases hn : n = aux
    · simp [hn, haux]
    · simp [hn]
  · rw [auxFixing_value] at hx
    split at hx
    · next hn =>
      cases hx
      exact hn ▸ hat
    · cases hx

/-- **With the auxiliary index fixed an expression keeps its value** where the index is at what it is fixed at. -/
theorem Scripted.carries_aux (h : r.Scripted) {aux : String} (haux : aux ∈ r.indices) {w : Whole}
    (hw : w.toInt.natAbs < 2 ^ 53) {s s' : Scope Float} (hat : s.value aux = some (ofInt w.toInt)) {e : Expr}
    {call : Call → Except Error Float} (hleaves : ∀ l ∈ e.leaves, (∃ c, l = .call c) ∨ l.Fixable r.indices)
    (hcarry : ∀ l ∈ e.leaves, Carries (l.eval s' call) (l.eval (s.only r.params) call)) :
    Carries (e.eval s' call)
      ((e.substitute (fixed aux w.text)).eval (s.only (r.params.filter (· != aux))) call) := by
  refine Expr.carries_substitute _ fun l hl v hv => ?_
  rcases hleaves l hl with ⟨c, rfl⟩ | hfixable
  · exact hv
  · have hv := hcarry l hl v hv
    rw [← fix_aux (List.mem_append_left _ haux) hw hat] at hv
    rw [← auxFixing_text (h := hw)]
    refine hfixable.carries (fun n x hx => ?_) h.elementary_notMem call v hv
    rw [auxFixing_value] at hx
    split at hx
    · next hn => exact hn ▸ haux
    · cases hx

/-- The names that the code of a base case reads. The auxiliary index is among them where the base case
leaves it open. -/
def given (r : Recurrence) (plan : LayerPlan) (b : BaseCase) : List String :=
  match b.slots[plan.auxSlot]?.join with
  | none => r.params
  | some _ => r.params.filter (· != plan.aux)

/-- The value of an index at a slot. -/
theorem slotPoint_value {vars : RuntimeVars Float} {a : Int} {i : String} (hi : i ∈ r.indices) :
    (r.pointScope vars (r.slotPoint plan l a)).value i = some (ofInt (indexAt plan l a i)) := by
  have hslot : r.indices[r.indices.idxOf i]? = some i := List.getElem?_idxOf hi
  rw [pointScope]
  dsimp only
  rw [if_pos (List.contains_iff_mem.2 hi), slotPoint, List.getElem?_map, hslot]
  rfl

section
variable {vars : RuntimeVars Float} {a : Int}

/-- Layer indices are fixed. -/
theorem BaseLayered.mem_of_layerFixing (h : r.BaseLayered plan) {hl : ∀ w ∈ l.values, w.toInt.natAbs < 2 ^ 53}
    {n : String} {x : Float} (hx : (layerFixing plan l hl).value n = some x) : n ∈ r.indices := by
  rw [layerFixing_value, Option.map_eq_some_iff] at hx
  obtain ⟨w, hw, -⟩ := hx
  exact h.mem_indices (Json.mem_of_getField?_zip hw).1

/-- In a slot, the layer indices are at what they are fixed at. -/
theorem BaseLayered.value_of_layerFixing (h : r.BaseLayered plan) {hl : ∀ w ∈ l.values, w.toInt.natAbs < 2 ^ 53}
    {n : String} {x : Float} (hx : (layerFixing plan l hl).value n = some x) :
    (r.pointScope vars (r.slotPoint plan l a)).value n = some x := by
  rw [slotPoint_value (h.mem_of_layerFixing hx)]
  rw [layerFixing_value, Option.map_eq_some_iff] at hx
  obtain ⟨w, hw, rfl⟩ := hx
  rw [indexAt, hw]
  rfl

/-- Fixing indices that stay bound changes nothing. -/
theorem BaseLayered.fix_layer (h : r.BaseLayered plan) (hl : ∀ w ∈ l.values, w.toInt.natAbs < 2 ^ 53) :
    ((r.pointScope vars (r.slotPoint plan l a)).only r.params).fix (layerFixing plan l hl) =
      (r.pointScope vars (r.slotPoint plan l a)).only r.params := by
  refine fix_only (fun n => ⟨.inl, fun hn => hn.elim id fun hn => ?_⟩) fun n x hx =>
    h.value_of_layerFixing hx
  obtain ⟨x, hx⟩ := Option.isSome_iff_exists.1 hn
  exact List.mem_append_left _ (h.mem_of_layerFixing hx)

/-- **What is written has the value of the base case at the slot** where it finds the names that it reads. -/
theorem Scripted.carries_written (h : r.Scripted) (hplan : r.BaseLayered plan) (hbinds : r.BindsExactly)
    (hl : l ∈ plan.baseLayers) (hb : b ∈ r.bases) (hvars : ∀ fn : MathFn, vars fn.name = none)
    (ha : b.isAt plan.auxSlot a) (call : Call → Except Error Float) :
    let s := r.pointScope vars (r.slotPoint plan l a)
    Carries (b.value.eval s call) ((written plan l b b.value).eval (s.only (r.given plan b)) call) := by
  intro s
  have hsmall := hplan.natAbs_values hbinds hl
  have hvalue : Carries (b.value.eval s call) ((b.value.substitute (Json.getField?
      (plan.layerIndices.zip (l.values.map Whole.text)))).eval (s.only r.params) call) := by
    rw [← layerFixing_text (h := hsmall)]
    refine Expr.carries_substitute _ fun leaf hleaf v hv => ?_
    refine (hplan.fix_layer hsmall ▸ (h.fixable_value hb hleaf).carries
      (fun n x hx => hplan.mem_of_layerFixing hx) h.elementary_notMem call) v ?_
    exact h.carries_only (h.value_elementary hvars _) (value_mem_exprs hb) hleaf call v hv
  unfold written given
  rw [BaseCase.isAt] at ha
  cases hslot : b.slots[plan.auxSlot]?.join with
  | none => exact hvalue
  | some w =>
    have hw := hbinds b hb w (List.mem_of_getElem? (Option.join_eq_some_iff.1 hslot))
    rw [hslot, Option.all_some, beq_iff_eq] at ha
    have haux := List.mem_of_getElem? hplan.aux
    have hat : s.value plan.aux = some (ofInt w.toInt) := by
      rw [slotPoint_value haux, hplan.indexAt_aux, ha]
    intro v hv
    refine h.carries_aux haux hw hat ?_ (fun leaf _ => .refl _) v (hvalue v hv)
    rw [Expr.leaves_substitute, List.forall_mem_map]
    exact fun leaf hleaf => .inr ((h.fixable_value hb hleaf).substitute _)

end

/-- **What is written is rendered as its script.** -/
theorem Scripted.exists_written (h : r.Scripted) (hb : b ∈ r.bases)
    (hread : ∀ t ∈ (written plan l b b.value).texts, Readable t) {d : Dialect} (hd : d.target = .js)
    (callText : CallText) (script : Call → Expression) :
    ∃ text, renderExpr d callText (written plan l b b.value) = .ok text ∧
      IsText (.binary 5) text [(written plan l b b.value).toScript script] :=
  Expr.exists_script (h.regular_written hb) fun leaf hleaf =>
    h.exists_operand hd callText script (h.isOperand_written hb hread leaf hleaf)

/-- **A running function gives what is written the value of the base case at the slot.** -/
theorem Scripted.eval_written (h : r.Scripted) (hplan : r.BaseLayered plan) (hbinds : r.BindsExactly)
    (hl : l ∈ plan.baseLayers) (hb : b ∈ r.bases)
    (hread : ∀ t ∈ (written plan l b b.value).texts, Readable t) {vars : RuntimeVars Float}
    (hvars : ∀ fn : MathFn, vars fn.name = none) {a : Int} (ha : b.isAt plan.auxSlot a)
    {w : World Float} {s : Locals Float}
    (hw : w.Provides s ((r.pointScope vars (r.slotPoint plan l a)).only (r.given plan b)) r.arrayVars)
    {call : Call → Except Error Float} {v : Float}
    (hv : b.value.eval (r.pointScope vars (r.slotPoint plan l a)) call = .ok v)
    (script : Call → Expression) :
    w.eval s ((written plan l b b.value).toScript script) = .ok (.num v) :=
  Expr.kept_of_leaves _ (fun leaf hleaf =>
    h.kept_operand (h.isOperand_written hb hread leaf hleaf) hw call script) v
    (h.carries_written hplan hbinds hl hb hvars ha call v hv)

end

end Recurrence

/-!
## Running the code of base layers

The code of a base layer writes the base cases in the order of declaration, each to the slots where it is
(`BaseCase.isAt`). So a slot is left with the value of the last base case that is there, and slots where none
is are left alone (`runStmts_baseScripts`).
-/

namespace Recurrence

variable {r : Recurrence} {plan : LayerPlan} {l : BaseLayer} {b : BaseCase} {o : CodegenOptions}

/-! ### Statements -/

/-- The statements that are written for a base case. -/
inductive IsBaseCode (r : Recurrence) (o : CodegenOptions) (plan : LayerPlan) (l : BaseLayer) (b : BaseCase) :
    List (Stmt String) → Prop
  | free {text : String} : b.slots[plan.auxSlot]?.join = none →
      renderExpr o.dialect r.noCalls (written plan l b b.value) = .ok text →
      IsBaseCode r o plan l b [.loop plan.aux 0 [.write plan.aux text]]
  | bound {a : Whole} {text : String} : b.slots[plan.auxSlot]?.join = some a → a.toInt < l.size →
      renderExpr o.dialect r.noCalls (written plan l b b.value) = .ok text →
      IsBaseCode r o plan l b [.write a.text text]
  | beyond {a : Whole} : b.slots[plan.auxSlot]?.join = some a → l.size ≤ a.toInt → IsBaseCode r o plan l b []

/-- **The code of a base layer has statements for one base case after the other.** -/
theorem baseCode_cons {bases : List BaseCase} {code : List (Stmt String)}
    (h : r.baseCode o plan l (b :: bases) = .ok code) : ∃ front rest, code = front ++ rest ∧
      r.IsBaseCode o plan l b front ∧ r.baseCode o plan l bases = .ok rest := by
  rw [baseCode] at h
  dsimp only at h
  cases hslot : b.slots[plan.auxSlot]?.join with
  | none =>
    rw [hslot] at h
    obtain ⟨text, htext, h⟩ := bind_ok h
    obtain ⟨_, ⟨⟩, h⟩ := bind_ok h
    obtain ⟨rest, hrest, h⟩ := bind_ok h
    cases h
    refine ⟨_, rest, rfl, .free hslot ?_, hrest⟩
    rwa [written, hslot]
  | some a =>
    rw [hslot] at h
    dsimp only at h
    split at h
    · next hlt =>
      obtain ⟨text, htext, h⟩ := bind_ok h
      obtain ⟨_, ⟨⟩, h⟩ := bind_ok h
      obtain ⟨rest, hrest, h⟩ := bind_ok h
      cases h
      refine ⟨_, rest, rfl, .bound hslot hlt ?_, hrest⟩
      rwa [written, hslot]
    · next hle =>
      obtain ⟨_, ⟨⟩, h⟩ := bind_ok h
      obtain ⟨rest, hrest, h⟩ := bind_ok h
      cases h
      exact ⟨_, rest, rfl, .beyond hslot (Int.not_lt.1 hle), hrest⟩

/-- The script of the value of a base case, which has no calls. -/
def valueScript (plan : LayerPlan) (l : BaseLayer) (b : BaseCase) : Expression :=
  (written plan l b b.value).toScript fun _ => .undefined

/-- The script of a base case: its value, written to the slots where it is. -/
def baseScript (plan : LayerPlan) (l : BaseLayer) (b : BaseCase) : List (Stmt Expression) :=
  match b.slots[plan.auxSlot]?.join with
  | none => [.loop plan.aux 0 [.write (.name plan.aux) (valueScript plan l b)]]
  | some a => if a.toInt < l.size then [.write (.ofText a.text) (valueScript plan l b)] else []

/-- A statement that writes a slot is read as one. -/
theorem readStmt_write {slot value : String} {e v : Expression} (he : readText slot = .ok e)
    (hv : readText value = .ok v) : readStmt (.write slot value) = .ok [.write e v] := by
  rw [readStmt, he, hv]
  rfl

/-- **The code of a base layer is read as the scripts of its base cases.** -/
theorem Scripted.readStmts_baseCode (h : r.Scripted) (ho : o.target = .js) (haux : plan.aux ∈ r.indices)
    {bases : List BaseCase} (hbases : ∀ b ∈ bases, b ∈ r.bases)
    (hread : ∀ b ∈ bases, ∀ t ∈ (written plan l b b.value).texts, Readable t)
    {code : List (Stmt String)} {script : List (Stmt Expression)}
    (hcode : r.baseCode o plan l bases = .ok code) (hscript : readStmts code = .ok script) :
    script = bases.flatMap (baseScript plan l) := by
  induction bases generalizing code script with
  | nil =>
    cases hcode
    cases hscript
    rfl
  | cons b bases ih =>
    rw [List.forall_mem_cons] at hbases hread
    obtain ⟨text, hrender, htext⟩ := h.exists_written hbases.1 hread.1
      (d := o.dialect) ho r.noCalls fun _ => .undefined
    have hvalue := (htext.lower (by decide : 1 ≤ 5)).cond.readText
    have hread_eq {t : String} (ht : renderExpr o.dialect r.noCalls (written plan l b b.value) = .ok t) :
        readText t = .ok (valueScript plan l b) :=
      Except.ok.inj (hrender.symm.trans ht) ▸ hvalue
    obtain ⟨front, rest, rfl, hfront, hrest⟩ := baseCode_cons hcode
    rw [List.flatMap_cons, baseScript]
    cases hfront with
    | @free text hslot ht =>
      obtain ⟨stmts, hstmts, hscript⟩ := bind_ok hscript
      obtain ⟨others, hothers, hscript⟩ := bind_ok hscript
      cases hscript
      have hname := ((h.isText_param (List.mem_append_left _ haux)).binary 1).cond.readText
      have hbody : readStmts [.write plan.aux text] = .ok [.write (.name plan.aux) (valueScript plan l b)] := by
        rw [readStmts, readStmt_write hname (hread_eq ht)]
        rfl
      obtain ⟨⟨⟩, -, hstmts⟩ := bind_ok hstmts
      obtain ⟨⟨⟩, -, hstmts⟩ := bind_ok hstmts
      rw [hbody] at hstmts
      cases hstmts
      rw [ih hbases.2 hread.2 hrest hothers, hslot]
    | @bound a t hslot hlt ht =>
      have hfinite := h.built.reported.slots b hbases.1 a (List.mem_of_getElem? (Option.join_eq_some_iff.1 hslot))
      obtain ⟨x, hx, -⟩ := isSide_intText hfinite
      have hplace := (hx.lower (by decide : 1 ≤ 5)).cond
      obtain ⟨stmts, hstmts, hscript⟩ := bind_ok hscript
      obtain ⟨others, hothers, hscript⟩ := bind_ok hscript
      cases hscript
      rw [ih hbases.2 hread.2 hrest hothers, hslot]
      dsimp only
      rw [Whole.text, readStmt_write hplace.readText (hread_eq ht)] at hstmts
      cases hstmts
      rw [if_pos hlt, Whole.text, hplace.ofText_eq]
    | beyond hslot hle =>
      rw [hslot, ih hbases.2 hread.2 hrest hscript]
      dsimp only
      rw [if_neg (Int.not_lt.2 hle), List.nil_append]

/-! ### What the code finds -/

/-- What a function has that computes a layer: the layer indices, the number of slots and the runtime
variables. It has no name for the auxiliary index and none of the surroundings. -/
structure HasLayer (r : Recurrence) (plan : LayerPlan) (l : BaseLayer) (vars : RuntimeVars Float)
    (w : World Float) (s : Locals Float) : Prop where
  layer : ∀ i v, Json.getField? (plan.layerIndices.zip l.values) i = some v →
    s.find? i = some ⟨i, some (.num (ofInt v.toInt))⟩
  count : s.read w.names "N_VALUES" = .ok (.num (ofInt l.size))
  scalar : ∀ v ∈ r.runtimeVars, ∀ x, vars v = some (.scalar x) → s.find? v = some ⟨v, some (.num x)⟩
  table : ∀ v ∈ r.runtimeVars, ∀ xs, vars v = some (.table xs) →
    s.find? v = some ⟨v, some (.ofItems (xs.map .num))⟩ ∧ xs.length < 2 ^ 32
  aux : plan.aux ∉ s.names
  free : ∀ n, IsElementary n → n ∉ s.names

section
variable {vars : RuntimeVars Float} {w : World Float} {s t : Locals Float} {a : Int}

/-- **A function that computes a layer provides what the values of base cases read**, whatever it wrote to
its buffer. -/
theorem HasLayer.provides (hs : r.HasLayer plan l vars w s) (h : r.Scripted) (hw : w.Elementary)
    (hplan : r.BaseLayered plan) (hl : l ∈ plan.baseLayers) (hout : "out" ∉ r.params)
    (hkept : ∀ n, n ≠ "out" → n ≠ plan.aux → t.find? n = s.find? n) {names : List String}
    (hnames : names ⊆ r.params)
    (haux : plan.aux ∈ names → t.find? plan.aux = some ⟨plan.aux, some (.num (ofInt a))⟩) :
    w.Provides t ((r.pointScope vars (r.slotPoint plan l a)).only names) r.arrayVars := by
  have hindex := List.mem_of_getElem? hplan.aux
  have hparam {n : String} (hn : n ∈ r.params) : n ≠ "out" := fun heq => hout (heq ▸ hn)
  refine ⟨hw.reads (fun n v hn => ?_) fun n hn => ?_, fun n hn e he hne => ?_⟩
  · obtain ⟨hmem, hvalue⟩ : n ∈ names ∧ (r.pointScope vars (r.slotPoint plan l a)).value n = some v := by
      rw [Scope.only] at hn
      dsimp only at hn
      split at hn
      · next hmem => exact ⟨hmem, hn⟩
      · cases hn
    by_cases hnaux : n = plan.aux
    · subst hnaux
      rw [slotPoint_value hindex, hplan.indexAt_aux, Option.some.injEq] at hvalue
      exact hvalue ▸ haux hmem
    · rw [hkept n (hparam (hnames hmem)) hnaux]
      by_cases hi : n ∈ r.indices
      · have hlayer : n ∈ plan.layerIndices := by
          rw [hplan.indices, List.mem_filter]
          exact ⟨hi, by simpa using hnaux⟩
        obtain ⟨k, hk⟩ := hplan.exists_value hl hlayer
        rw [slotPoint_value hi, indexAt, hk, Option.some.injEq] at hvalue
        exact hvalue ▸ hs.layer n k hk
      · have hvar : n ∈ r.runtimeVars := (List.mem_append.1 (hnames hmem)).resolve_left hi
        exact hs.scalar n hvar v (scalar_of_pointScope hi hvalue)
  · have hnout : n ≠ "out" := by
      rintro rfl
      exact absurd hn (by decide)
    have hnaux : n ≠ plan.aux := by
      rintro rfl
      exact h.notMem_of_isElementary hn (List.mem_append_left _ hindex)
    rw [hkept n hnout hnaux]
    exact Locals.find?_eq_none (hs.free n hn)
  · have hvar : n ∈ r.runtimeVars := h.built.arrays hn
    have hnaux : n ≠ plan.aux := by
      rintro rfl
      exact h.built.runtime_not_index hvar hindex
    obtain ⟨xs, hxs, rfl⟩ := r.exists_of_pointScope_table (r.slotPoint plan l a) he hne
    obtain ⟨hfind, hlength⟩ := hs.table n hvar xs hxs
    refine ⟨Locals.read_of_find? ?_, hlength⟩
    rw [hkept n (hparam (List.mem_append_right _ hvar)) hnaux]
    exact hfind

/-- Writing to its buffer takes nothing away from a function that computes a layer. -/
theorem HasLayer.wrote (hs : r.HasLayer plan l vars w s) (hplan : r.BaseLayered plan) (hout : "out" ∉ r.params)
    {length : Nat} {f : Nat → Value Float} (ht : Wrote s t length f) : r.HasLayer plan l vars w t := by
  have hother {n : String} (hn : n ∈ r.params) : t.find? n = s.find? n :=
    ht.others n fun heq => hout (heq ▸ hn)
  have hvar {v : String} (hv : v ∈ r.runtimeVars) : t.find? v = s.find? v :=
    hother (List.mem_append_right _ hv)
  refine ⟨fun i v hv => ?_, ?_, fun v hv x hx => ?_, fun v hv xs hxs => ?_, ?_, fun n hn => ?_⟩
  · rw [hother (List.mem_append_left _ (hplan.mem_indices (Json.mem_of_getField?_zip hv).1))]
    exact hs.layer i v hv
  · rw [Locals.read_congr (ht.others "N_VALUES" (by decide))]
    exact hs.count
  · rw [hvar hv]
    exact hs.scalar v hv x hx
  · rw [hvar hv]
    exact hs.table v hv xs hxs
  · rw [ht.names]
    exact hs.aux
  · rw [ht.names]
    exact hs.free n hn

/-! ### Runs -/

/-- Whether code writes a base case to a slot of a layer. Slots below zero are written to only by base cases
that name them. -/
def isWritten (plan : LayerPlan) (l : BaseLayer) (b : BaseCase) (a : Int) : Bool :=
  b.isAt plan.auxSlot a && decide (a < l.size) && (decide (0 ≤ a) || b.slots[plan.auxSlot]?.join.isSome)

/-- The slots after a base case is written: those that it is written to have its value. -/
def withBase (plan : LayerPlan) (l : BaseLayer) (value : BaseCase → Int → Float) (f : Nat → Value Float)
    (b : BaseCase) : Nat → Value Float :=
  fun k => if isWritten plan l b k then .num (value b k) else f k

variable {limits : Limits} {length : Nat} {f : Nat → Value Float} {named : List (String × Value Float)}
  {value : BaseCase → Int → Float} {call : Call → Except Error Float}

variable (h : r.Scripted) (hplan : r.BaseLayered plan) (hbinds : r.BindsExactly) (hl : l ∈ plan.baseLayers)
  (hout : "out" ∉ r.params) (hcount : "N_VALUES" ∉ r.params) (hvars : ∀ fn : MathFn, vars fn.name = none)
  (hw : w.Elementary) (hpos : 0 ≤ l.size) (hsize : l.size ≤ length) (hlength : length < 2 ^ 32)
  (hpasses : l.size < limits.passes)

include h hplan hbinds hl hout hvars hw in
/-- **The script of a value has the value** where it is written, whatever was written to the buffer. -/
theorem eval_valueScript (hb : b ∈ r.bases) (hread : ∀ t ∈ (written plan l b b.value).texts, Readable t)
    (hs : r.HasLayer plan l vars w s) (ha : b.isAt plan.auxSlot a)
    (hkept : ∀ n, n ≠ "out" → n ≠ plan.aux → t.find? n = s.find? n)
    (haux : b.slots[plan.auxSlot]?.join = none → t.find? plan.aux = some ⟨plan.aux, some (.num (ofInt a))⟩)
    {v : Float} (hv : b.value.eval (r.pointScope vars (r.slotPoint plan l a)) call = .ok v) :
    w.eval t (valueScript plan l b) = .ok (.num v) := by
  refine h.eval_written hplan hbinds hl hb hread hvars ha
    (hs.provides h hw hplan hl hout hkept (fun n hn => ?_) fun hmem => haux ?_) hv _
  · unfold given at hn
    split at hn
    · exact hn
    · exact (List.mem_filter.1 hn).1
  · unfold given at hmem
    split at hmem
    · next hslot => exact hslot
    · simp at hmem

include h hw in
/-- The text of what a base case binds has its value. -/
theorem eval_ofText_bound (hb : b ∈ r.bases) {k : Whole} (hk : some k ∈ b.slots)
    (hs : r.HasLayer plan l vars w s) : w.eval s (.ofText k.text) = .ok (.num (ofInt k.toInt)) := by
  have hfinite := h.built.reported.slots b hb k hk
  obtain ⟨x, hx, hside⟩ := isSide_intText hfinite
  have hreads : w.Reads s fun _ => none :=
    hw.reads (fun n v hv => by cases hv) fun n hn => Locals.find?_eq_none (hs.free n hn)
  rw [Whole.text, (hx.lower (by decide : 1 ≤ 5)).cond.ofText_eq]
  exact hside hreads _ (eval_eq_ok_iff.2 (hasValue_intText hfinite _).2)

include h hplan hbinds hl hout hcount hvars hw hpos hsize hlength hpasses in
/-- **The script of a base case writes its value.** -/
theorem runStmts_baseScript (hb : b ∈ r.bases) (hread : ∀ t ∈ (written plan l b b.value).texts, Readable t)
    (hvalue : ∀ a, isWritten plan l b a → b.value.eval (r.pointScope vars (r.slotPoint plan l a)) call =
      .ok (value b a))
    (hs : r.HasLayer plan l vars w s)
    (hfind : s.find? "out" = some ⟨"out", some (Value.slots length f named)⟩) :
    ∃ t, runStmts limits w s (baseScript plan l b) = .ok (t, none) ∧
      Wrote s t length (withBase plan l value f b) := by
  have haux : plan.aux ∈ r.params := List.mem_append_left _ (List.mem_of_getElem? hplan.aux)
  unfold baseScript
  cases hslot : b.slots[plan.auxSlot]?.join with
  | none =>
    have hat (k : Int) : b.isAt plan.auxSlot k = true := by
      rw [BaseCase.isAt, hslot]
      rfl
    have hfill : withBase plan l value f b = fun k : Nat => if (k : Int) < l.size then .num (value b k) else f k := by
      funext k
      simp [withBase, isWritten, hat]
    obtain ⟨t, hrun, hwrote⟩ := runStmt_fill (fun k => .num (value b k)) hs.count hfind hs.aux
      (fun heq => hout (heq ▸ haux)) (fun heq => hcount (heq ▸ haux)) hpos hsize hlength hpasses
      fun k t hlt ht => eval_valueScript h hplan hbinds hl hout hvars hw hb hread hs (hat k) ht.others
        (fun _ => ht.index) (hvalue k (by simp [isWritten, hat, hlt]))
    exact ⟨t, runStmts_singleton hrun, hfill ▸ hwrote⟩
  | some a =>
    have hat (k : Int) : b.isAt plan.auxSlot k = decide (a.toInt = k) := by
      rw [BaseCase.isAt, hslot]
      rfl
    dsimp only
    split
    · next hlt =>
      have heval := eval_valueScript h hplan hbinds hl hout hvars hw hb hread hs (a := a.toInt) (t := s)
        (by simp [hat]) (fun _ _ _ => rfl) (by simp [hslot]) (hvalue a.toInt (by simp [isWritten, hat, hlt, hslot]))
      have hplace : w.eval s (.ofText a.text) = .ok (.num (ofInt a.toInt)) :=
        eval_ofText_bound h hw hb (List.mem_of_getElem? (Option.join_eq_some_iff.1 hslot)) hs
      have hmem := Locals.mem_names_of_find? hfind
      by_cases hneg : a.toInt < 0
      · obtain ⟨named', hwrite⟩ := runStmt_write_neg limits hfind hplace heval hneg
          (hbinds b hb a (List.mem_of_getElem? (Option.join_eq_some_iff.1 hslot))).le
        have hnone : withBase plan l value f b = f := by
          funext k
          refine if_neg ?_
          simp only [isWritten, hat, Bool.and_eq_true, decide_eq_true_eq]
          omega
        exact ⟨_, runStmts_singleton hwrite, by rw [hnone]; exact .assign hmem⟩
      · have hwrite := runStmt_write limits hfind hplace heval (by omega) (by omega) hlength
        have hupdate : withBase plan l value f b =
            Function.update f a.toInt.toNat (.num (value b a.toInt)) := by
          funext k
          rw [withBase, isWritten, hat, hslot, Function.update_apply]
          by_cases hk : a.toInt = k
          · rw [if_pos (by simp [← hk, hlt]), if_pos (by omega), hk]
          · rw [if_neg (by simp [hk]), if_neg (by omega)]
        exact ⟨_, runStmts_singleton hwrite, by rw [hupdate]; exact .assign hmem⟩
    · next hle =>
      have hnone : withBase plan l value f b = f := by
        funext k
        refine if_neg ?_
        simp only [isWritten, hat, Bool.and_eq_true, decide_eq_true_eq]
        omega
      exact ⟨s, rfl, by rw [hnone]; exact .refl hfind⟩

include h hplan hbinds hl hout hcount hvars hw hpos hsize hlength hpasses in
/-- **The code of a base layer writes its base cases in their order.** -/
theorem runStmts_baseScripts {bases : List BaseCase} (hbases : ∀ b ∈ bases, b ∈ r.bases)
    (hread : ∀ b ∈ bases, ∀ t ∈ (written plan l b b.value).texts, Readable t)
    (hvalue : ∀ b ∈ bases, ∀ a, isWritten plan l b a →
      b.value.eval (r.pointScope vars (r.slotPoint plan l a)) call = .ok (value b a)) :
    ∀ {f : Nat → Value Float} {named : List (String × Value Float)} {s : Locals Float},
    r.HasLayer plan l vars w s → s.find? "out" = some ⟨"out", some (Value.slots length f named)⟩ →
    ∃ t, runStmts limits w s (bases.flatMap (baseScript plan l)) = .ok (t, none) ∧
      Wrote s t length (bases.foldl (withBase plan l value) f) := by
  induction bases with
  | nil => exact fun _ hfind => ⟨_, rfl, .refl hfind⟩
  | cons b bases ih =>
    intro f named s hs hfind
    rw [List.forall_mem_cons] at hbases hread hvalue
    obtain ⟨t, hrun, hwrote⟩ := runStmts_baseScript h hplan hbinds hl hout hcount hvars hw hpos hsize hlength
      hpasses hbases.1 hread.1 hvalue.1 hs hfind
    obtain ⟨named', hfind'⟩ := hwrote.out
    obtain ⟨u, hrest, hwrote'⟩ := ih hbases.2 hread.2 hvalue.2 (hs.wrote hplan hout hwrote) hfind'
    refine ⟨u, ?_, hwrote.trans hwrote'⟩
    rw [List.flatMap_cons, runStmts_append hrun]
    exact hrest

end

/-! ### The slots in the end -/

section
variable {value : BaseCase → Int → Float} {f : Nat → Value Float} {k : Nat}

/-- **The last base case that is written to a slot stays.** -/
theorem foldl_withBase (bases : List BaseCase) (k : Nat) : bases.foldl (withBase plan l value) f k =
    (((bases.filter fun b => isWritten plan l b k).getLast?).map fun b => Value.num (value b k)).getD (f k) := by
  induction bases generalizing f with
  | nil => rfl
  | cons b bases ih =>
    rw [List.foldl_cons, ih, withBase, List.filter_cons]
    split
    · cases hrest : bases.filter fun b => isWritten plan l b k with
      | nil => rfl
      | cons c rest =>
        rw [List.getLast?_cons_cons, List.getLast?_eq_some_getLast (List.cons_ne_nil c rest)]
        rfl
    · rfl

/-- A slot that no base case is written to is left alone. -/
theorem foldl_withBase_of_none {bases : List BaseCase} (h : ∀ b ∈ bases, isWritten plan l b k = false) :
    bases.foldl (withBase plan l value) f k = f k := by
  rw [foldl_withBase, List.filter_eq_nil_iff.2 fun b hb => by simp [h b hb]]
  rfl

/-- The last base case that is written to a slot, with the others around it. -/
theorem foldl_withBase_of_last {front back : List BaseCase} (hb : isWritten plan l b k)
    (hback : ∀ b ∈ back, isWritten plan l b k = false) :
    (front ++ b :: back).foldl (withBase plan l value) f k = .num (value b k) := by
  rw [List.foldl_append, List.foldl_cons, foldl_withBase_of_none hback, withBase, if_pos hb]

end

end Recurrence

end RecurrenceCompiler
