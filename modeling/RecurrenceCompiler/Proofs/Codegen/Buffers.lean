import RecurrenceCompiler.Proofs.Arith.Names
import RecurrenceCompiler.Proofs.Codegen.InBounds
import RecurrenceCompiler.Proofs.Codegen.Operands
import RecurrenceCompiler.Proofs.Codegen.RenderedTexts

/-!
# Buffers of a group

Buffers are collected from the calls of a group's rules and found again by signature while the bodies are
rendered, which happens after indices are fixed and repeated parts are shared. The signature of a layer
tells its target and its shifts (`layerSignature_inj`), and rendering makes no calls of its own, so each
call that is rendered finds the buffer with its own target and layer shifts (`reads_find_buffers`).
-/

namespace RecurrenceCompiler

open Text Decimal Arith RuleText

/-! ## Calls of rules -/

namespace Expr

theorem IsBody.spelled {rank : Nat} {e : Expr} (h : e.IsBody rank) : ∀ c ∈ e.calls, c.Spelled rank := by
  obtain ⟨ts, rfl, hts⟩ := h
  intro c hc
  rw [mem_calls, leaves_sum] at hc
  obtain ⟨t, ht, hc⟩ := List.mem_flatMap.1 hc
  obtain ⟨hcoeff, d, hd, hspelled⟩ := hts t ht
  rcases List.mem_append.1 hc with hc | hc
  · exact absurd hc (not_call_of_isArithmetic hcoeff.isArithmetic)
  · rw [hd] at hc
    cases List.mem_singleton.1 hc
    exact hspelled

end Expr

theorem RuleText.spelled_parseRule {ctx : Context} (hvars : ∀ v ∈ ctx.runtimeVars, isIdentifier v)
    {text : String} {scale : Option String} {e : Expr} (h : parseRule ctx text scale = .ok e) :
    ∀ c ∈ e.calls, c.Spelled ctx.indices.length := by
  obtain ⟨body, hbody, h⟩ := bind_ok h
  have hcalls := (isBody_parseBody hvars hbody).spelled
  cases scale with
  | none =>
    cases h
    exact hcalls
  | some s =>
    obtain ⟨⟨factor, division⟩, hscale, h⟩ := bind_ok h
    cases h
    have hnone := Expr.calls_of_isArithmetic (isArithmetic_parseCoeff (parseScaleChars_eq_ok hscale))
    rwa [Expr.calls_scaled, hnone, List.append_nil]

namespace Recurrence

/-- **The calls of a recurrence's rules** have names for targets and a shift that is a double for each index. -/
theorem Built.spelled_calls {r : Recurrence} (h : r.Built) :
    ∀ rule ∈ r.rules, ∀ c ∈ rule.expr.calls, c.Spelled r.indices.length := by
  induction h with
  | create h =>
    rw [(created_of_create h).rules]
    exact nofun
  | @step r s hr ih =>
    have hvars := hr.wellFormed.runtime
    rcases r.run_cases s with h | ⟨ds, h⟩
    · generalize (s.run r).1 = r' at h
      cases h with
      | validity | base => exact ih
      | rule _ he =>
        exact List.forall_mem_append.2 ⟨ih, List.forall_mem_singleton.2
          (@spelled_parseRule r.nextContext hvars _ _ _ he)⟩
      | average _ _ hes =>
        refine List.forall_mem_append.2 ⟨ih, List.forall_mem_singleton.2 ?_⟩
        rw [Expr.calls_average, List.forall_mem_append, List.forall_mem_flatMap]
        refine ⟨fun e he => ?_, nofun⟩
        obtain ⟨b, -, hb⟩ := exists_of_forall₂ hes he
        exact (@isBody_parseBody r.nextContext hvars b e hb).spelled
    · rw [h]
      exact ih

end Recurrence

/-! ## Signatures of layers -/

/-- A shift is known from the shifted index. -/
theorem shiftedIndex_inj {name : String} {s s' : Int} (hs : onDoubleGrid s = s) (hs' : onDoubleGrid s' = s')
    (h : shiftedIndex name s = shiftedIndex name s') : s = s' := by
  have hmagnitude {s : Int} (hs : onDoubleGrid s = s) (hlt : s < 0) : onDoubleGrid (-s) = -s := by
    have habs := onDoubleGrid_natAbs hs
    rwa [Int.ofNat_natAbs_of_nonpos hlt.le] at habs
  have hchars := congrArg String.toList h
  simp only [shiftedIndex, beq_iff_eq, apply_ite String.toList, String.toList_append] at hchars
  -- A text without a sign, with a plus or with a minus is one of its own.
  split_ifs at hchars with hzero hzero' hpos' hpos hzero' hpos' hzero' hpos' <;> simp at hchars
  · rw [hzero, hzero']
  · exact intText_inj hs hs' (String.toList_inj.1 hchars)
  · have heq := intText_inj (hmagnitude hs (by omega)) (hmagnitude hs' (by omega)) (String.toList_inj.1 hchars)
    omega

/-- A shifted index has no comma. -/
theorem comma_not_mem_shiftedIndex {name : String} (hname : isIdentifier name) (s : Int) :
    ',' ∉ (shiftedIndex name s).toList := by
  have hword : ',' ∉ name.toList := fun hmem => by cases isWord_of_isIdentifier hname _ hmem
  have hnumber (i : Int) : ',' ∉ (intText i).toList := fun hmem =>
    absurd ((spells_intText i).not_isJoint _ hmem) (by decide)
  rw [shiftedIndex]
  split
  · exact hword
  · split <;> simpa using ⟨hword, hnumber _⟩

/-- The shifts of a list of indices are known from their joined texts. -/
theorem shifts_inj {is : List String} {ss ss' : List Int} (his : ∀ i ∈ is, isIdentifier i)
    (hlen : ss.length = is.length) (hlen' : ss'.length = is.length)
    (hss : ∀ s ∈ ss, onDoubleGrid s = s) (hss' : ∀ s ∈ ss', onDoubleGrid s = s)
    (h : ", ".intercalate ((is.zip ss).map fun (i, s) => shiftedIndex i s) =
      ", ".intercalate ((is.zip ss').map fun (i, s) => shiftedIndex i s)) : ss = ss' := by
  induction is generalizing ss ss' with
  | nil => rw [List.length_eq_zero_iff.1 hlen, List.length_eq_zero_iff.1 hlen']
  | cons i is ih =>
    obtain ⟨s, ss, rfl⟩ := List.exists_cons_of_length_eq_add_one hlen
    obtain ⟨s', ss', rfl⟩ := List.exists_cons_of_length_eq_add_one hlen'
    rw [List.forall_mem_cons] at his hss hss'
    simp only [List.length_cons, Nat.add_right_cancel_iff] at hlen hlen'
    cases is with
    | nil =>
      obtain rfl := List.length_eq_zero_iff.1 hlen
      obtain rfl := List.length_eq_zero_iff.1 hlen'
      rw [shiftedIndex_inj hss.1 hss'.1 (by simpa using h)]
    | cons j js =>
      obtain ⟨t, ts, rfl⟩ := List.exists_cons_of_length_eq_add_one hlen
      obtain ⟨t', ts', rfl⟩ := List.exists_cons_of_length_eq_add_one hlen'
      -- The first comma ends the first shifted index.
      have hchars := congrArg String.toList h
      have hglue : ", ".toList = [',', ' '] := rfl
      simp only [List.zip_cons_cons, List.map_cons, String.intercalate_cons_cons, String.toList_append, hglue,
        List.append_assoc, List.cons_append, List.nil_append] at hchars
      obtain ⟨hfirst, hrest⟩ := append_cons_inj_first (comma_not_mem_shiftedIndex his.1 s)
        (comma_not_mem_shiftedIndex his.1 s') hchars
      have hrest := String.toList_inj.1 (List.cons.inj hrest).2
      rw [shiftedIndex_inj hss.1 hss'.1 (String.toList_inj.1 hfirst), ih his.2 hlen hlen' hss.2 hss'.2 hrest]

/-- The calls of a group's rules. -/
def LayerGroup.calls (g : LayerGroup) : List Call :=
  g.rules.flatMap fun lr => lr.rule.expr.calls

namespace Recurrence

variable {r : Recurrence} {o : CodegenOptions} {plan : LayerPlan} {g : LayerGroup} {buffers : List Buffer}

/-- The signature of the layer that a call reads. -/
def layerSignature (r : Recurrence) (plan : LayerPlan) (c : Call) : String :=
  bufferSignature (r.foreignTarget c) plan (r.layerShifts plan.layerIndices c)

/-- **The signature of a layer tells its target and its shifts.** -/
theorem layerSignature_inj {rank : Nat} (his : ∀ i ∈ plan.layerIndices, isIdentifier i) {c d : Call}
    (hc : c.Spelled rank) (hd : d.Spelled rank) (h : r.layerSignature plan c = r.layerSignature plan d) :
    r.foreignTarget c = r.foreignTarget d ∧
      r.layerShifts plan.layerIndices c = r.layerShifts plan.layerIndices d := by
  have hforeign {c : Call} (hc : c.Spelled rank) :
      ({ c with target := r.foreignTarget c } : Call).Spelled rank := by
    refine { hc with target := fun t ht => hc.target t ?_ }
    dsimp only [foreignTarget] at ht
    split at ht
    · cases ht
    · exact ht
  have hsquare {c : Call} (hc : c.Spelled rank) : '[' ∉ ((r.foreignTarget c).getD "").toList := by
    intro hmem
    cases ht : r.foreignTarget c with
    | none => simp [ht] at hmem
    | some t =>
      rw [ht, Option.getD_some] at hmem
      cases isWord_of_isIdentifier ((hforeign hc).target t ht) _ hmem
  have hchars := congrArg String.toList h
  have hopen : "[".toList = ['['] := rfl
  simp only [layerSignature, bufferSignature, String.toList_append, hopen, List.append_assoc,
    List.singleton_append] at hchars
  obtain ⟨htarget, hshifts⟩ := append_cons_inj_first (hsquare hc) (hsquare hd) hchars
  refine ⟨Call.target_eq (hforeign hc) (hforeign hd) htarget, ?_⟩
  have hgrid {c : Call} (hc : c.Spelled rank) :
      ∀ s ∈ r.layerShifts plan.layerIndices c, onDoubleGrid s = s :=
    List.forall_mem_map.2 fun i _ => hc.onGrid_shiftAt _
  exact shifts_inj his (List.length_map ..) (List.length_map ..) (hgrid hc) (hgrid hd)
    (String.toList_inj.1 (List.append_cancel_right hshifts))

/-! ## Collected buffers -/

/-- What is found is found for each call. -/
theorem readLayers_eq_ok {cs : List (Nat × Call)} {found : List (String × Option String × List Int)}
    (h : r.readLayers plan cs = .ok found) : found = cs.map fun (_, c) =>
      (r.layerSignature plan c, r.foreignTarget c, r.layerShifts plan.layerIndices c) := by
  induction cs generalizing found with
  | nil =>
    cases h
    rfl
  | cons p cs ih =>
    obtain ⟨rule, c⟩ := p
    rw [readLayers] at h
    dsimp only at h
    split at h
    · cases h
    · obtain ⟨others, hothers, h⟩ := bind_ok h
      cases h
      rw [ih hothers]
      rfl

/-- The name of the buffer at a place among some. -/
def bufferName (count place : Nat) : String :=
  if count == 1 then "prev" else "prev_" ++ toString place

/-- A buffer has the place of its signature for a number, and the target and the shifts of a call with that
signature. -/
structure Collected (r : Recurrence) (plan : LayerPlan) (g : LayerGroup) (signatures : List String)
    (place : Nat) (b : Buffer) : Prop where
  signature : signatures[place]? = some b.signature
  name : b.name = bufferName signatures.length place
  call : ∃ c ∈ g.calls, r.layerSignature plan c = b.signature ∧ r.foreignTarget c = b.target ∧
    r.layerShifts plan.layerIndices c = b.shifts

/-- **The buffers of a group** are one a signature of its calls. -/
theorem buffers_eq_ok (h : r.buffers plan g = .ok buffers) : ∃ signatures : List String,
    signatures.Nodup ∧ (∀ b ∈ buffers, ∃ place, r.Collected plan g signatures place b) ∧
      ∀ c ∈ g.calls, ∃ b ∈ buffers, b.signature = r.layerSignature plan c := by
  obtain ⟨found, hfound, h⟩ := bind_ok h
  cases h
  have hfound := readLayers_eq_ok hfound
  have hmem {p : String × Option String × List Int} : p ∈ found ↔ ∃ c ∈ g.calls,
      (r.layerSignature plan c, r.foreignTarget c, r.layerShifts plan.layerIndices c) = p := by
    rw [hfound, List.map_flatMap, LayerGroup.calls]
    simp only [List.mem_flatMap, List.map_map, List.mem_map, Function.comp_apply]
    constructor
    · rintro ⟨lr, hlr, c, hc, rfl⟩
      exact ⟨c, ⟨lr, hlr, hc⟩, rfl⟩
    · rintro ⟨c, ⟨lr, hlr, hc⟩, rfl⟩
      exact ⟨lr, hlr, c, hc, rfl⟩
  have hperm : (sortByUnits (distinct (found.map (·.1)))).Perm (distinct (found.map (·.1))) :=
    sortBy_perm unitsLe _
  have hsignatures {s : String} : s ∈ sortByUnits (distinct (found.map (·.1))) ↔ ∃ p ∈ found, p.1 = s := by
    rw [hperm.mem_iff, mem_distinct, List.mem_map]
  refine ⟨sortByUnits (distinct (found.map (·.1))), hperm.nodup_iff.2 (nodup_distinct _), ?_, ?_⟩
  · intro b hb
    obtain ⟨⟨s, place⟩, hs, hb⟩ := List.mem_filterMap.1 hb
    obtain ⟨⟨target, shifts⟩, hfield, rfl⟩ := Option.map_eq_some_iff.1 hb
    obtain ⟨p, hp, hpair⟩ := Option.map_eq_some_iff.1 hfield
    obtain ⟨c, hc, rfl⟩ := hmem.1 (List.mem_of_find?_eq_some hp)
    cases hpair
    have hsig : r.layerSignature plan c = s := by simpa using List.find?_some hp
    exact ⟨place, List.mem_zipIdx_iff_getElem?.1 hs, rfl, c, hc, hsig, rfl, rfl⟩
  · intro c hc
    have hentry := hmem.2 ⟨c, hc, rfl⟩
    obtain ⟨place, hplace⟩ := List.mem_iff_getElem?.1 (hsignatures.2 ⟨_, hentry, rfl⟩)
    have hfield : (found.find? fun f => f.1 == r.layerSignature plan c).isSome :=
      List.find?_isSome.2 ⟨_, hentry, by simp⟩
    obtain ⟨p, hp⟩ := Option.isSome_iff_exists.1 hfield
    exact ⟨_, List.mem_filterMap.2 ⟨(_, place), List.mem_zipIdx_iff_getElem?.2 hplace,
      Option.map_eq_some_iff.2 ⟨p.2, Option.map_eq_some_iff.2 ⟨p, hp, rfl⟩, rfl⟩⟩, rfl⟩

/-- Numbered buffers have names of their own. -/
theorem bufferName_inj {count i j : Nat} (hi : i < count) (hj : j < count)
    (h : bufferName count i = bufferName count j) : i = j := by
  rw [bufferName, bufferName] at h
  split at h
  · next hone =>
    have hone : count = 1 := by simpa using hone
    omega
  · have hdigits := congrArg String.toList h
    rw [String.toList_append, String.toList_append, List.append_cancel_left_eq, Body.toList_toString,
      Body.toList_toString] at hdigits
    simpa using congrArg natOfDigits hdigits

/-! ## Reads find their buffers -/

/-- The calls of a group have names for targets and shifts that are doubles. -/
theorem Gathered.spelled_calls (hr : r.Built) {aux : String} {groups : List LayerGroup}
    (hgathered : r.Gathered aux r.sortedRules groups) (hg : g ∈ groups) :
    ∀ c ∈ g.calls, c.Spelled r.indices.length :=
  List.forall_mem_flatMap.2 fun lr hlr =>
    hr.spelled_calls lr.rule ((sortedRules_perm r).subset (hgathered.member g hg lr hlr).1)

/-- **A call of a group finds a buffer** by its signature, and that buffer has its target and its shifts. -/
theorem find?_signature (his : ∀ i ∈ plan.layerIndices, isIdentifier i) {rank : Nat}
    (hspelled : ∀ c ∈ g.calls, c.Spelled rank) (hbuffers : r.buffers plan g = .ok buffers) {c : Call}
    (hc : c ∈ g.calls) : ∃ b, buffers.find? (fun b => b.signature == r.layerSignature plan c) = some b ∧
      b.target = r.foreignTarget c ∧ b.shifts = r.layerShifts plan.layerIndices c := by
  obtain ⟨signatures, -, hcollected, hfound⟩ := buffers_eq_ok hbuffers
  obtain ⟨b', hb', hsig'⟩ := hfound c hc
  have hsome : (buffers.find? fun b => b.signature == r.layerSignature plan c).isSome :=
    List.find?_isSome.2 ⟨b', hb', by simpa using hsig'⟩
  obtain ⟨b, hb⟩ := Option.isSome_iff_exists.1 hsome
  have hsig : b.signature = r.layerSignature plan c := by simpa using List.find?_some hb
  obtain ⟨place, hplace⟩ := hcollected b (List.mem_of_find?_eq_some hb)
  obtain ⟨d, hd, hdsig, htarget, hshifts⟩ := hplace.call
  obtain ⟨htarget', hshifts'⟩ := layerSignature_inj his (hspelled d hd) (hspelled c hc) (hdsig.trans hsig)
  exact ⟨b, hb, htarget.symm.trans htarget', hshifts.symm.trans hshifts'⟩

/-- Buffers have one name exactly if they hold one layer. -/
theorem name_eq_iff (his : ∀ i ∈ plan.layerIndices, isIdentifier i) {rank : Nat}
    (hspelled : ∀ c ∈ g.calls, c.Spelled rank) (hbuffers : r.buffers plan g = .ok buffers) {b b' : Buffer}
    (hb : b ∈ buffers) (hb' : b' ∈ buffers) :
    b.name = b'.name ↔ b.target = b'.target ∧ b.shifts = b'.shifts := by
  obtain ⟨signatures, hnodup, hcollected, -⟩ := buffers_eq_ok hbuffers
  obtain ⟨i, hi⟩ := hcollected b hb
  obtain ⟨j, hj⟩ := hcollected b' hb'
  obtain ⟨c, hc, hsig, htarget, hshifts⟩ := hi.call
  obtain ⟨d, hd, hsig', htarget', hshifts'⟩ := hj.call
  obtain ⟨hlt, hget⟩ := List.getElem?_eq_some_iff.1 hi.signature
  obtain ⟨hlt', hget'⟩ := List.getElem?_eq_some_iff.1 hj.signature
  rw [← htarget, ← htarget', ← hshifts, ← hshifts', hi.name, hj.name]
  constructor
  · intro h
    obtain rfl := bufferName_inj hlt hlt' h
    exact layerSignature_inj his (hspelled c hc) (hspelled d hd)
      (hsig.trans (hget.symm.trans (hget'.trans hsig'.symm)))
  · rintro ⟨hsame, hsame'⟩
    have hlayer : r.layerSignature plan c = r.layerSignature plan d := by
      rw [layerSignature, layerSignature, hsame, hsame']
    have hplace : signatures[i] = signatures[j] := by rw [hget, hget', ← hsig, ← hsig', hlayer]
    rw [(hnodup.getElem_inj_iff).1 hplace]

/-- Whatever is no call is rendered. -/
theorem exists_leafText {d : Dialect} {call : CallText} {l : Expr} (hl : l.isLeaf)
    (hcall : ∀ c, l = .call c → ∃ text, call c = .ok text) : ∃ text, renderExpr d call l = .ok text := by
  cases l with
  | call c => exact hcall c rfl
  | const c => cases c <;> exact ⟨_, rfl⟩
  | var | index | lookup | ref => exact ⟨_, rfl⟩
  | _ => cases hl

/-- A body whose calls all find a buffer is rendered. -/
theorem exists_layerBody {e : Expr} (he : e.Regular) (hcalls : ∀ c ∈ e.calls, ∃ b,
      buffers.find? (fun b => b.signature == r.layerSignature plan c) = some b) (auxAt : Option Int) :
    ∃ body, r.layerBody o plan buffers auxAt e = .ok body := by
  refine Body.exists_render he (fun l hl => exists_leafText (Expr.isLeaf_of_mem_leaves hl) ?_) _ _ _
  rintro c rfl
  obtain ⟨b, hb⟩ := hcalls c (Expr.mem_calls.2 hl)
  rw [readCall]
  dsimp only
  split
  · next hnone => cases hnone.symm.trans hb
  · exact ⟨_, rfl⟩

/-- The code of a rule is written, whichever role it has, if the calls of the rule all find a buffer. -/
theorem exists_blockCode {lr : LayerRule} (he : lr.rule.expr.Regular) (hcalls : ∀ c ∈ lr.rule.expr.calls,
      ∃ b, buffers.find? (fun b => b.signature == r.layerSignature plan c) = some b) :
    ∃ role, r.blockCode o plan g buffers lr = .ok role := by
  rw [blockCode]
  split
  · have hfixed : ∀ c ∈ (lr.rule.expr.substitute (fixed plan.aux "0")).calls,
        ∃ b, buffers.find? (fun b => b.signature == r.layerSignature plan c) = some b := by
      rwa [Expr.calls_substitute]
    obtain ⟨body, hbody⟩ := exists_layerBody (o := o) he.substitute hfixed (some 0)
    exact ⟨_, by rw [zeroCode, hbody]; rfl⟩
  · obtain ⟨body, hbody⟩ := exists_layerBody (o := o) he hcalls none
    exact ⟨_, by rw [generalCode, hbody]; rfl⟩
  · obtain ⟨body, hbody⟩ := exists_layerBody (o := o) he hcalls none
    exact ⟨_, by rw [maxCode, hbody]; rfl⟩

/-- **Every read of another layer finds its own buffer.** A call that is rendered for a group, in a shared part
or in the shared form, before or after the auxiliary index is fixed, finds the buffer with its own target and
layer shifts by its signature. So the code of the group's roles is written, and buffers that hold different layers
have different names. -/
theorem reads_find_buffers (hr : r.Built) (hplan : r.planLayers o.tablePadding = .ok plan)
    (hg : g ∈ plan.groups) (hbuffers : r.buffers plan g = .ok buffers) :
    (∀ lr ∈ g.rules, ∀ e, e = lr.rule.expr ∨ e = lr.rule.expr.substitute (fixed plan.aux "0") →
      ∀ c ∈ Body.renderedCalls r.indices o.optimization o.cseThreshold e,
        ∃ b, buffers.find? (fun b => b.signature ==
            bufferSignature (r.foreignTarget c) plan (r.layerShifts plan.layerIndices c)) = some b ∧
          b.target = r.foreignTarget c ∧ b.shifts = r.layerShifts plan.layerIndices c) ∧
    (∃ roles, r.roleCode o plan g buffers = .ok roles) ∧
    ∀ b ∈ buffers, ∀ b' ∈ buffers, b.name = b'.name ↔ b.target = b'.target ∧ b.shifts = b'.shifts := by
  have hplanned := planned_of_planLayersIn hplan
  have hgathered := hplanned.gathered
  have his : ∀ i ∈ plan.layerIndices, isIdentifier i := by
    rw [hplanned.layerIndices]
    exact fun i hi => hr.wellFormed.identifiers i (List.mem_filter.1 hi).1
  have hspelled := hgathered.spelled_calls hr hg
  have hfind {lr : LayerRule} (hlr : lr ∈ g.rules) {c : Call} (hc : c ∈ lr.rule.expr.calls) :=
    find?_signature his hspelled hbuffers (List.mem_flatMap.2 ⟨lr, hlr, hc⟩)
  have hregular {lr : LayerRule} (hlr : lr ∈ g.rules) : lr.rule.expr.Regular :=
    Expr.regular_of_isRuleShaped
      (hr.readShaped.rules _ ((sortedRules_perm r).subset (hgathered.member g hg lr hlr).1))
  refine ⟨fun lr hlr e he c hc => ?_, ?_, fun b hb b' hb' => name_eq_iff his hspelled hbuffers hb hb'⟩
  · have hc := Body.renderedCalls_subset hc
    rcases he with rfl | rfl
    · exact hfind hlr hc
    · rw [Expr.calls_substitute] at hc
      exact hfind hlr hc
  · have hblocks : ∀ lr ∈ g.blocks, ∃ role, r.blockCode o plan g buffers lr = .ok role := fun lr hlr => by
      have hlr := LayerGroup.mem_of_mem_blocks hlr
      exact exists_blockCode (hregular hlr) fun c hc => (hfind hlr hc).imp fun _ h => h.1
    obtain ⟨roles, hroles, -⟩ := exists_mapM_map (g := fun _ => ()) (k := fun _ => ())
      fun lr hlr => (hblocks lr hlr).imp fun _ h => ⟨h, rfl⟩
    exact ⟨roles, by rw [roleCode_eq, hroles]⟩

/-- A rule for slot zero and one with repeated parts, which read two layers and one of another recurrence. -/
def threeLayerSteps : List Step :=
  [.validity ["t >= 0", "t <= n"], .base [("n", 0), ("t", 0)] (.number 1),
    .base [("n", 1), ("t", 0)] (.number 2),
    .rule "n > 1 && t == 0" "E[n-1, t+1] + (n+t)*Path[n-2, t]" none none,
    .rule "n > 1" "(n+t)*E[n-1, t] + (n+t)*E[n-2, t-1] + Other[n-1, t]" none none]

/-- Two layers and one of another recurrence stand in three buffers. -/
theorem reads_find_buffers_three : ∃ r plan g buffers, planOf threeLayerSteps = .ok (r, plan) ∧
    g ∈ plan.groups ∧ r.buffers plan g = .ok buffers ∧
    buffers.map (fun b => (b.name, b.target, b.shifts)) =
      [("prev_0", some "Other", [-1]), ("prev_1", none, [-1]), ("prev_2", none, [-2])] ∧
    (∀ lr ∈ g.rules, ∀ e, e = lr.rule.expr ∨ e = lr.rule.expr.substitute (fixed plan.aux "0") →
      ∀ c ∈ Body.renderedCalls r.indices .cse 2 e,
        ∃ b, buffers.find? (fun b => b.signature ==
            bufferSignature (r.foreignTarget c) plan (r.layerShifts plan.layerIndices c)) = some b ∧
          b.target = r.foreignTarget c ∧ b.shifts = r.layerShifts plan.layerIndices c) ∧
    ∃ roles, r.roleCode { target := .js } plan g buffers = .ok roles ∧ roles.map (·.1) = [.inline, .cse] := by
  have hcheck : ((planOf threeLayerSteps).toOption.any fun p => p.2.groups.any fun g =>
      (p.1.buffers p.2 g).toOption.any fun buffers =>
        decide (buffers.map (fun b => (b.name, b.target, b.shifts)) =
          [("prev_0", some "Other", [-1]), ("prev_1", none, [-1]), ("prev_2", none, [-2])]) &&
        (p.1.roleCode { target := .js } p.2 g buffers).toOption.any fun roles =>
          decide (roles.map (·.1) = [.inline, .cse])) = true := by
    decide +kernel
  obtain ⟨⟨r, plan⟩, hrun, hcheck⟩ := exists_ok_of_any hcheck
  obtain ⟨hr, hplan⟩ := planOf_eq_ok hrun
  obtain ⟨g, hg, hcheck⟩ := List.any_eq_true.1 hcheck
  obtain ⟨buffers, hbuffers, hcheck⟩ := exists_ok_of_any hcheck
  rw [Bool.and_eq_true, decide_eq_true_eq] at hcheck
  obtain ⟨roles, hroles, hstrategies⟩ := exists_ok_of_any hcheck.2
  have hplan : r.planLayers ({ target := .js } : CodegenOptions).tablePadding = .ok plan := hplan
  exact ⟨r, plan, g, buffers, hrun, hg, hbuffers, hcheck.1, (reads_find_buffers hr hplan hg hbuffers).1,
    roles, hroles, of_decide_eq_true hstrategies⟩

end Recurrence

end RecurrenceCompiler
