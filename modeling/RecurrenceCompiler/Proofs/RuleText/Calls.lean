import RecurrenceCompiler.Proofs.RuleText.Spacing

/-!
# Calls read back

A call is printed with one component for each index, in order: the index and its shift. The parser
reads each component back (`shift?_shiftChars`) and so the call (`parseCall_inside`), as long as no
shift is the negative zero and all are written in digits alone.
-/

namespace RecurrenceCompiler

open Text Decimal Arith

/-- A shift that its text gives back: it is not the negative zero, and it is written in digits. -/
structure Decimal.Whole.Written (w : Whole) : Prop where
  signed : w.negative → w.magnitude ≠ 0
  digits : isNatural (intText w.magnitude).toList

namespace RuleText

variable {ctx : Context}

/-! ## Shifts -/

theorem isDigit_of_isNatural {cs : List Char} (h : isNatural cs) : cs.all isDigit :=
  (Bool.and_eq_true_iff.1 h).2

/-- What is spelled in digits is finite. -/
theorem isFinite_of_isNatural {cs : List Char} {x : Float} (h : Spells cs x) (hcs : isNatural cs) :
    IsFinite x := by
  have hagrees := agrees x
  rw [Spells] at h
  rw [IsFinite]
  cases hu : x.toModel.unpack <;> cases hr : Reading.ofFloat x <;> rw [hu, hr] at hagrees <;>
    try exact hagrees.elim
  case notANumber.nan =>
    rw [hr] at h
    subst h
    cases hcs
  case infinity.infinite s n =>
    rw [hr] at h
    subst h
    cases n <;> cases hcs
  all_goals trivial

/-- Digits are a literal. -/
theorem signedLiteral?_digits {cs : List Char} (h : isNatural cs) :
    signedLiteral? cs = some (toFloat (natOfDigits cs) 0) := by
  have hdigits := isDigit_of_isNatural h
  have hne : cs ≠ [] := by rintro rfl; cases h
  have hwell : (⟨cs, false, [], none⟩ : Literal).WellFormed :=
    ⟨hdigits, rfl, fun _ => rfl, .inl hne, nofun⟩
  have hchars : (⟨cs, false, [], none⟩ : Literal).chars = cs := by simp [Literal.chars]
  have hscan := Literal.scan?_chars hwell (Literal.stops_nil _)
  rw [hchars, List.append_nil] at hscan
  rw [signedLiteral?, Literal.ofChars?, hscan]
  · simp [Literal.value, Literal.power]
  · rintro r rfl
    simp [isDigit] at hdigits
  · rintro r rfl
    simp [isDigit] at hdigits

/-- **The magnitude of a shift is read back from its digits.** -/
theorem read_intText {w : Whole} (hw : w.Written) (hgrid : w.OnGrid) :
    Whole.read (intText w.magnitude).toList = ⟨false, w.magnitude⟩ := by
  have hspells := spells_intText w.magnitude
  have hdigits := hw.digits
  have hliteral := hspells.signedLiteral?_eq (isFinite_of_isNatural hspells hdigits) (isNegativeZero_ofInt _)
  generalize (intText w.magnitude).toList = cs at *
  rw [signedLiteral?_digits hdigits, Option.some.injEq] at hliteral
  have hvalue : onDoubleGrid (natOfDigits cs) = w.magnitude := by
    rw [← (toFloat_natural (natOfDigits cs)).2, hliteral, toInt_ofInt, onGrid_magnitude hgrid]
  have hread : readInteger cs = w.magnitude := by
    rw [readInteger, hvalue]
    rintro r rfl
    cases hdigits
  rw [Whole.read, hread, Int.natAbs_natCast]
  rintro r rfl
  cases hdigits

/-- An index with its shift, as it is printed. -/
def shiftChars (name : String) (w : Whole) : List Char :=
  (printShift name w.toInt).toList

theorem startingName?_append {name rest : List Char} (h : isName name)
    (hrest : ∀ c ∈ rest.head?, isWord c = false) : startingName? (name ++ rest) = some (name, rest) := by
  cases name with
  | nil => cases h
  | cons c cs =>
    obtain ⟨hc, hcs⟩ := Bool.and_eq_true_iff.1 h
    have htake : rest.takeWhile isWord = [] ∧ rest.dropWhile isWord = rest := by
      cases rest with
      | nil => exact ⟨rfl, rfl⟩
      | cons d ds => simp [hrest d rfl]
    rw [List.cons_append, startingName?, if_pos hc, takeWhile_append_of_all hcs,
      dropWhile_append_of_all hcs, htake.1, htake.2, List.append_nil]

/-- The text of an index with its shift, by the sign of the shift. -/
theorem shiftChars_cases (name : String) {w : Whole} (hw : w.Written) :
    (w = 0 ∧ shiftChars name w = name.toList) ∨
    (w.negative = false ∧ shiftChars name w = name.toList ++ '+' :: (intText w.magnitude).toList) ∨
    (w.negative = true ∧ shiftChars name w = name.toList ++ '-' :: (intText w.magnitude).toList) := by
  obtain ⟨negative, magnitude⟩ := w
  rw [shiftChars, printShift]
  cases negative with
  | true =>
    have hne : magnitude ≠ 0 := hw.signed rfl
    have hvalue : (⟨true, magnitude⟩ : Whole).toInt = -(magnitude : Int) := rfl
    refine .inr (.inr ⟨rfl, ?_⟩)
    rw [hvalue, if_neg (by simpa using hne), if_neg (by omega), Int.neg_neg]
    simp
  | false =>
    have hvalue : (⟨false, magnitude⟩ : Whole).toInt = magnitude := rfl
    rw [hvalue]
    rcases Nat.eq_zero_or_pos magnitude with rfl | hpos
    · exact .inl ⟨rfl, rfl⟩
    · refine .inr (.inl ⟨rfl, ?_⟩)
      rw [if_neg (by simpa using hpos.ne'), if_pos (by omega)]
      simp

/-- **An index with its shift is read back.** -/
theorem shift?_shiftChars {name : String} {w : Whole} (hname : isIdentifier name) (hw : w.Written)
    (hgrid : w.OnGrid) : shift? (shiftChars name w) = some (name, w) := by
  have hread := read_intText hw hgrid
  have hdigits := hw.digits
  have htrim : trimStart (intText w.magnitude).toList = (intText w.magnitude).toList := by
    cases hcs : (intText w.magnitude).toList with
    | nil => rfl
    | cons c cs =>
      rw [hcs] at hdigits
      have hc : isDigit c := (Bool.and_eq_true_iff.1 (isDigit_of_isNatural hdigits)).1
      exact List.dropWhile_cons_of_neg (by simp [isBlank_of_not_isJoint (isJoint_of_isDigit hc)])
  obtain ⟨rfl, htext⟩ | ⟨hsign, htext⟩ | ⟨hsign, htext⟩ := shiftChars_cases name hw
  · have hstart := @startingName?_append name.toList [] hname (by simp)
    rw [List.append_nil] at hstart
    rw [htext, shift?, hstart]
    simp [trimStart]
  · rw [htext, shift?, startingName?_append hname (by rintro c ⟨⟩; rfl)]
    have hplus (cs : List Char) : trimStart ('+' :: cs) = '+' :: cs := rfl
    simp only [hplus, htrim, hdigits, hread, if_true, Option.map_some, String.ofList_toList, ← hsign]
  · rw [htext, shift?, startingName?_append hname (by rintro c ⟨⟩; rfl)]
    have hminus (cs : List Char) : trimStart ('-' :: cs) = '-' :: cs := rfl
    simp only [hminus, htrim, hdigits, hread, if_true, Option.map_some, String.ofList_toList, Whole.negate,
      Bool.not_false, ← hsign]

/-- No joint stands in an index with its shift. -/
theorem shiftChars_not_isJoint {name : String} {w : Whole} (hname : isIdentifier name) (hw : w.Written) :
    ∀ c ∈ shiftChars name w, isJoint c = false := by
  have hword : ∀ c ∈ name.toList, isJoint c = false := fun c hc =>
    isJoint_of_isWord (isWord_of_isIdentifier hname c hc)
  have hdigit : ∀ c ∈ (intText w.magnitude).toList, isJoint c = false := fun c hc =>
    isJoint_of_isDigit (List.all_eq_true.1 (isDigit_of_isNatural hw.digits) c hc)
  obtain ⟨-, htext⟩ | ⟨-, htext⟩ | ⟨-, htext⟩ := shiftChars_cases name hw
  · rwa [htext]
  all_goals
    rw [htext]
    exact List.forall_mem_append.2 ⟨hword, List.forall_mem_cons.2 ⟨rfl, hdigit⟩⟩

/-! ## Components -/

/-- The components of a call, as they are printed. -/
def components (indices : List String) (shifts : List Whole) : List (List Char) :=
  List.zipWith shiftChars indices shifts

/-- The components that follow set the shifts that follow. -/
theorem parseShifts_components (hctx : ctx.WellNamed) {done rest seen : List String} {ws vs : List Whole}
    (hindices : ctx.indices = done ++ rest) (hseen : ∀ n ∈ seen, n ∈ done) (hws : ws.length = done.length)
    (hvs : vs.length = rest.length) (hwritten : ∀ v ∈ vs, v.Written ∧ v.OnGrid) :
    parseShifts ctx seen (ws ++ rest.map fun _ => 0) (components rest vs) = .ok (ws ++ vs) := by
  induction rest generalizing done seen ws vs with
  | nil =>
    obtain rfl := List.length_eq_zero_iff.1 hvs
    rfl
  | cons name rest ih =>
    obtain ⟨v, vs, rfl⟩ : ∃ v vs', vs = v :: vs' := List.exists_cons_of_length_eq_add_one hvs
    obtain ⟨hv, hvgrid⟩ := hwritten v (by simp)
    have hmem : name ∈ ctx.indices := by simp [hindices]
    have hnodup := hctx.nodup
    rw [hindices] at hnodup
    have hnew : name ∉ done := fun hdone => (List.nodup_append.1 hnodup).2.2 name hdone name (by simp) rfl
    have hslot : ctx.indices.idxOf name = ws.length := by
      rw [hindices, List.idxOf_append_of_notMem hnew, List.idxOf_cons_self, hws, Nat.add_zero]
    have hunseen : name ∉ seen := fun h => hnew (hseen name h)
    have hseen' : (!ctx.indices.contains name || seen.contains name) = false := by simp [hmem, hunseen]
    rw [components, List.zipWith_cons_cons, parseShifts, shift?_shiftChars (hctx.indices name hmem) hv hvgrid]
    simp only [hseen', Bool.false_eq_true, if_false]
    rw [hslot, List.map_cons, List.set_append_right _ _ (Nat.le_refl _), Nat.sub_self, List.set_cons_zero,
      List.append_cons ws v, List.append_cons ws v vs]
    refine @ih (done ++ [name]) (name :: seen) (ws ++ [v]) vs (by simp [hindices]) ?_ (by simp [hws])
      (by simpa using hvs) fun u hu => hwritten u (by simp [hu])
    intro n hn
    rcases List.mem_cons.1 hn with rfl | hn
    · simp
    · simp [hseen n hn]

/-! ## Calls -/

/-- A call as it is read in a context: the recurrence itself has no target. -/
structure IsCall (ctx : Context) (c : Call) : Prop where
  spelled : c.Spelled ctx.indices.length
  target : ∀ t, c.target = some t → t ≠ ctx.name ∧ t ≠ ctx.selfName
  indexed : ctx.indices ≠ []

theorem isCall_parseCall {name text : List Char} {c : Call} (hname : isName name)
    (h : parseCall ctx name text = .ok c) : IsCall ctx c := by
  have hspelled := spelled_parseCall hname h
  rw [parseCall] at h
  split at h
  · cases h
  · obtain ⟨shifts, hshifts, h⟩ := bind_ok h
    cases h
    refine ⟨hspelled, fun t ht => ?_, fun hnil => ?_⟩
    · dsimp only at ht
      split at ht
      · cases ht
      · next hne =>
        cases ht
        simpa using hne
    · cases hpieces : splitTop ',' text with
      | nil => exact splitTopFrom_ne_nil hpieces
      | cons p ps =>
        rw [hpieces, parseShifts] at hshifts
        split at hshifts
        · cases hshifts
        · simp [hnil] at hshifts

/-- The name of a call. -/
def callName (ctx : Context) (c : Call) : List Char :=
  (c.target.getD ctx.selfName).toList

/-- What stands between the brackets of a call. -/
def insideChars (ctx : Context) (c : Call) : List Char :=
  [',', ' '].intercalate (components ctx.indices c.shifts)

/-- The names that the printer uses for a context. -/
def Context.names (ctx : Context) : PrintContext :=
  ⟨ctx.indices, ctx.selfName⟩

theorem toList_printCall {c : Call} (h : IsCall ctx c) :
    (printCall ctx.names c).toList = callName ctx c ++ '[' :: (insideChars ctx c ++ [']']) := by
  have hprint : printCall ctx.names c = c.target.getD ctx.selfName ++ "[" ++
      ", ".intercalate (ctx.indices.zipIdx.map fun p => printShift p.1 (c.shiftAt p.2)) ++ "]" := rfl
  have hparts : (ctx.indices.zipIdx.map fun p => printShift p.1 (c.shiftAt p.2)).map String.toList =
      components ctx.indices c.shifts := by
    refine List.ext_getElem (by simp [components, h.spelled.length]) fun i h₁ h₂ => ?_
    have hi : i < c.shifts.length := by
      rw [h.spelled.length]
      simpa using h₁
    simp [components, shiftChars, Call.shiftAt, Call.wholeShiftAt, List.getElem?_eq_getElem hi]
  simp [hprint, callName, insideChars, String.toList_intercalate, ← hparts]

theorem isName_callName (hctx : ctx.WellNamed) {c : Call} (h : IsCall ctx c) : isName (callName ctx c) := by
  rw [callName]
  cases ht : c.target with
  | none => exact hctx.selfName
  | some t => exact h.spelled.target t ht

theorem components_ne_nil {c : Call} (h : IsCall ctx c) : components ctx.indices c.shifts ≠ [] := by
  intro hnil
  have hlen := congrArg List.length hnil
  rw [components, List.length_zipWith, h.spelled.length, Nat.min_self] at hlen
  exact h.indexed (List.length_eq_zero_iff.1 hlen)

section
variable {c : Call} (hctx : ctx.WellNamed) (hwritten : ∀ w ∈ c.shifts, w.Written)
include hctx hwritten

theorem components_not_isJoint :
    ∀ p ∈ components ctx.indices c.shifts, p ≠ [] ∧ ∀ d ∈ p, isJoint d = false := by
  intro p hp
  rw [components, ← List.map_uncurry_zip_eq_zipWith] at hp
  obtain ⟨⟨name, w⟩, hmem, rfl⟩ := List.mem_map.1 hp
  obtain ⟨hname, hw⟩ := List.of_mem_zip hmem
  have hname := hctx.indices name hname
  have hw := hwritten w hw
  have hne : name.toList ≠ [] := (solid_name hname).ne_nil
  refine ⟨?_, shiftChars_not_isJoint hname hw⟩
  change shiftChars name w ≠ []
  obtain ⟨-, htext⟩ | ⟨-, htext⟩ | ⟨-, htext⟩ := shiftChars_cases name hw <;> simp [htext, hne]

/-- Between the brackets of a call are its components, commas and blanks. -/
theorem mem_insideChars {d : Char} (hd : d ∈ insideChars ctx c) : isJoint d = false ∨ d = ',' ∨ d = ' ' := by
  rcases mem_intercalate hd with hd | ⟨p, hp, hd⟩
  · exact .inr (by simpa using hd)
  · exact .inl ((components_not_isJoint hctx hwritten p hp).2 d hd)

/-- **A call is read back.** -/
theorem parseCall_inside (h : IsCall ctx c) : parseCall ctx (callName ctx c) (insideChars ctx c) = .ok c := by
  have hparts := components_not_isJoint hctx hwritten
  have hne := components_ne_nil h
  have hsplit : splitTop ',' (insideChars ctx c) = components ctx.indices c.shifts := by
    refine @splitTop_intercalate ',' (by decide) [] (.inl rfl) _ hne fun p hp => ?_
    have hjoint := (hparts p hp).2
    obtain ⟨hhead, hlast⟩ := ends_of_not_isJoint hjoint
    exact ⟨uncut_of_not_mem (fun hmem => by cases hjoint _ hmem) 0,
      balanced_of_plain fun d hd => isPlain_of_not_isJoint (hjoint d hd), trim_eq_self hhead hlast⟩
  have hshifts := @parseShifts_components ctx hctx [] ctx.indices [] [] c.shifts rfl nofun rfl
    h.spelled.length fun w hw => ⟨hwritten w hw, h.spelled.shifts w hw⟩
  have htrim : (trim (insideChars ctx c)).isEmpty = false := by
    obtain ⟨p, ps, hcons⟩ := List.exists_cons_of_ne_nil hne
    obtain ⟨hp, hjoint⟩ := hparts p (by simp [hcons])
    obtain ⟨d, ds, rfl⟩ := List.exists_cons_of_ne_nil hp
    have hblank := isBlank_of_not_isJoint (hjoint d (by simp))
    refine List.isEmpty_eq_false_iff.2 (trim_ne_nil_of_mem (c := d) ?_ hblank)
    rw [insideChars, hcons]
    cases ps <;> simp [List.intercalate_cons_cons]
  have htarget : (if (String.ofList (callName ctx c) == ctx.name ||
      String.ofList (callName ctx c) == ctx.selfName) = true then none
      else some (String.ofList (callName ctx c))) = c.target := by
    rw [callName, String.ofList_toList]
    cases ht : c.target with
    | none => simp
    | some t => simp [h.target t ht]
  rw [List.nil_append] at hshifts
  rw [parseCall, htrim, hsplit, hshifts, if_neg (by decide)]
  exact congrArg (fun target => Except.ok (Call.mk c.shifts target)) htarget

end

end RuleText

end RecurrenceCompiler
