import RecurrenceCompiler.Expr.Signature
import RecurrenceCompiler.Proofs.Decimal.Spelling
import RecurrenceCompiler.Proofs.Expr.Eval
import RecurrenceCompiler.Proofs.Joined
import RecurrenceCompiler.Proofs.RuleText.Cuts
import RecurrenceCompiler.Proofs.Sorting

/-!
# Signatures tell expressions apart

Texts stand in signatures as they are, stars and parentheses included. A product is still found again
in its signature, if the brackets of its texts close in order and none of them has both a colon and a
star outside its brackets: each parenthesis of the signature then closes where it should, and the star
between two factors cannot be taken for one inside a text. What is not found again is the sign of a
zero, whose text has none (`Expr.plainZeros_eq_of_signature`), so products without negative zeros are
told apart (`Expr.signature_inj`). The signature of a call lists its shifts by the names of the indices.
It is cut at its commas, and each part at its last colon, so distinct names without commas are read back
from it, if there is one for every shift (`Call.signature_inj`).
-/

namespace RecurrenceCompiler

open Text Decimal RuleText

/-- A text whose end is found again in a signature. -/
structure Separable (t : String) : Prop where
  balanced : balanced t.toList
  /-- It has no colon, as what follows it has, or no star outside its brackets, as stands after it. -/
  ends : ':' ∉ t.toList ∨ uncut '*' 0 t.toList

/-- A text without colons that can be found again in a signature. -/
structure Legible (t : String) : Prop where
  balanced : balanced t.toList
  colon : ':' ∉ t.toList

theorem Legible.separable {t : String} (h : Legible t) : Separable t :=
  ⟨h.balanced, .inl h.colon⟩

namespace Expr

/-- A product of numbers, runtime texts and index texts, which can be read back from its signature. -/
inductive IsSeparable : Expr → Prop
  | number (x : Float) : IsSeparable (.number x)
  | var {t : String} : Separable t → IsSeparable (.var t)
  | index {t : String} : Separable t → IsSeparable (.index t)
  | mul {l r : Expr} : IsSeparable l → IsSeparable r → IsSeparable (.binop .mul l r)

/-- A product of numbers, runtime texts and index texts. -/
inductive IsCoefficient : Expr → Prop
  | number (x : Float) : IsCoefficient (.number x)
  | var {t : String} : Legible t → IsCoefficient (.var t)
  | index {t : String} : Legible t → IsCoefficient (.index t)
  | mul {l r : Expr} : IsCoefficient l → IsCoefficient r → IsCoefficient (.binop .mul l r)

/-- No constant is the negative zero, whose text is that of zero. -/
def NoNegativeZero (e : Expr) : Prop :=
  ∀ x, .number x ∈ e.leaves → isNegativeZero x = false

/-- Whether a leaf is a negative zero. -/
def isNegativeZeroLeaf : Expr → Bool
  | .const (.number x) => isNegativeZero x
  | _ => false

instance (e : Expr) : Decidable e.NoNegativeZero :=
  decidable_of_iff (∀ l ∈ e.leaves, l.isNegativeZeroLeaf = false) <| by
    refine ⟨fun h x hx => h _ hx, fun h l hl => ?_⟩
    cases l with
    | const c =>
      cases c with
      | number x => exact h x hl
      | raw t => rfl
    | _ => rfl

theorem IsCoefficient.isSeparable {e : Expr} (h : e.IsCoefficient) : e.IsSeparable := by
  induction h with
  | number x => exact .number x
  | var ht => exact .var ht.separable
  | index ht => exact .index ht.separable
  | mul _ _ ihl ihr => exact .mul ihl ihr

section
variable {indices : List String}

/-- The text of a number is legible. -/
theorem legible_numberText (x : Float) : Legible (numberText x) := by
  have hjoint : ∀ c ∈ (numberText x).toList, isJoint c = false := by
    rw [numberText, String.toList_ofList]
    exact (spells_numberChars x).not_isJoint
  exact ⟨balanced_of_plain fun c hc => isPlain_of_not_isJoint (hjoint c hc),
    fun hmem => by cases hjoint _ hmem⟩

/-! ## Zeros -/

/-- A number, or zero for the negative zero. -/
def plainZero (x : Float) : Float :=
  if isNegativeZero x then 0.0 else x

/-- A product of constants and texts with zero in place of the negative zero. -/
def plainZeros : Expr → Expr
  | .const (.number x) => .number (plainZero x)
  | .binop op l r => .binop op l.plainZeros r.plainZeros
  | e => e

theorem isNegativeZero_plainZero (x : Float) : isNegativeZero (plainZero x) = false := by
  rw [plainZero]
  split
  · decide
  · next hx => simpa using hx

/-- The text of a number does not show the sign of a zero. -/
theorem numberChars_plainZero (x : Float) : numberChars (plainZero x) = numberChars x := by
  rw [plainZero]
  split
  · next hx =>
    rw [isNegativeZero, beq_iff_eq] at hx
    have hzero : numberChars 0.0 = ['0'] := by decide
    rw [hzero, numberChars, hx]
  · rfl

/-- Numbers with the same text differ in the sign of a zero at most. -/
theorem plainZero_eq_of_numberChars {x y : Float} (h : numberChars x = numberChars y) :
    plainZero x = plainZero y := by
  rw [← numberChars_plainZero x, ← numberChars_plainZero y] at h
  exact numberChars_inj (isNegativeZero_plainZero x) (isNegativeZero_plainZero y) h

/-- Signatures do not show the signs of zeros. -/
theorem signature_plainZeros (e : Expr) : e.plainZeros.signature indices = e.signature indices := by
  induction e using Expr.induction with
  | const c =>
    cases c with
    | number x =>
      change "const:" ++ numberText (plainZero x) = "const:" ++ numberText x
      rw [numberText, numberText, numberChars_plainZero]
    | raw t => rfl
  | binop op l r ihl ihr => rw [plainZeros, signature, signature, ihl, ihr]
  | _ => rfl

/-- The leaves of a product. -/
theorem NoNegativeZero.of_mul {l r : Expr} (h : (Expr.binop .mul l r).NoNegativeZero) :
    l.NoNegativeZero ∧ r.NoNegativeZero := by
  simp only [NoNegativeZero, leaves, List.mem_append] at h
  exact ⟨fun x hx => h x (.inl hx), fun x hx => h x (.inr hx)⟩

/-- Without negative zeros there is nothing to replace. -/
theorem IsSeparable.plainZeros_eq {e : Expr} (h : e.IsSeparable) (hz : e.NoNegativeZero) :
    e.plainZeros = e := by
  induction h with
  | number x =>
    rw [Expr.number, plainZeros, plainZero, hz x (by simp [Expr.number, leaves])]
    rfl
  | var | index => rfl
  | mul _ _ ihl ihr => rw [plainZeros, ihl hz.of_mul.1, ihr hz.of_mul.2]

/-! ## Coefficients -/

/-- The tags before the colons. -/
def leafTags : List String :=
  ["const", "var", "idx"]

/-- The signature of a product. -/
theorem toList_signature_mul (l r : Expr) : ((Expr.binop .mul l r).signature indices).toList =
    '(' :: ((l.signature indices).toList ++ '*' :: (r.signature indices).toList) ++ [')'] := by
  simp [signature, BinOp.text]

/-- A coefficient is a tagged text or a product. -/
theorem IsSeparable.tagged_or_mul {e : Expr} (h : e.IsSeparable) (indices : List String) :
    (∃ tag ∈ leafTags, ∃ t, Separable t ∧ e.signature indices = tag ++ ":" ++ t) ∨
      ∃ l r, l.IsSeparable ∧ r.IsSeparable ∧ e = .binop .mul l r := by
  cases h with
  | number x => exact .inl ⟨"const", by simp [leafTags], _, (legible_numberText x).separable, rfl⟩
  | var ht => exact .inl ⟨"var", by simp [leafTags], _, ht, rfl⟩
  | index ht => exact .inl ⟨"idx", by simp [leafTags], _, ht, rfl⟩
  | mul hl hr => exact .inr ⟨_, _, hl, hr, rfl⟩

/-- Tags are words. -/
theorem isWord_of_mem_leafTags {tag : String} (h : tag ∈ leafTags) : ∀ c ∈ tag.toList, isWord c := by
  simp only [leafTags, List.mem_cons, List.not_mem_nil, or_false] at h
  rcases h with rfl | rfl | rfl <;> simp [isWord, isNameStart]

theorem toList_tagged (tag t : String) : (tag ++ ":" ++ t).toList = tag.toList ++ ':' :: t.toList := by
  simp

/-- A tag with its colon has no bracket. -/
theorem isPlain_tag {tag : String} (h : tag ∈ leafTags) : ∀ c ∈ tag.toList ++ [':'], isPlain c := by
  intro c hc
  rcases List.mem_append.1 hc with hc | hc
  · exact isPlain_of_isWord (isWord_of_mem_leafTags h c hc)
  · rw [List.mem_singleton.1 hc]
    rfl

/-- The brackets of a signature close in order. -/
theorem IsSeparable.balanced_signature {e : Expr} (h : e.IsSeparable) :
    balanced (e.signature indices).toList := by
  induction e using Expr.induction with
  | binop op l r ihl ihr =>
    cases h with
    | mul hl hr =>
      rw [toList_signature_mul]
      refine balanced_paren ?_
      rw [balanced_append (ihl hl), balanced, balancedFrom_plain rfl]
      exact ihr hr
  | _ =>
    obtain ⟨tag, htag, t, ht, heq⟩ | ⟨l, r, -, -, heq⟩ := h.tagged_or_mul indices
    · rw [heq, toList_tagged, List.append_cons, balanced_append (balanced_of_plain (isPlain_tag htag))]
      exact ht.balanced
    · cases heq

/-- Before the first colon of a signature stands no star. -/
theorem IsSeparable.exists_colon {e : Expr} (h : e.IsSeparable) (indices : List String) :
    ∃ a b, (e.signature indices).toList = a ++ ':' :: b ∧ ':' ∉ a ∧ '*' ∉ a := by
  induction e using Expr.induction with
  | binop op l r ihl _ =>
    cases h with
    | mul hl hr =>
      obtain ⟨a, b, hab, hcolon, hstar⟩ := ihl hl
      refine ⟨'(' :: a, b ++ '*' :: (r.signature indices).toList ++ [')'], ?_, by simp [hcolon],
        by simp [hstar]⟩
      rw [toList_signature_mul, hab]
      simp
  | _ =>
    obtain ⟨tag, htag, t, ht, heq⟩ | ⟨l, r, -, -, heq⟩ := h.tagged_or_mul indices
    · have hword := isWord_of_mem_leafTags htag
      exact ⟨tag.toList, t.toList, by rw [heq, toList_tagged], fun hc => (by cases hword _ hc),
        fun hc => (by cases hword _ hc)⟩
    · cases heq

/-- A signature that starts with a parenthesis is that of a product. -/
theorem IsSeparable.mul_of_paren {e : Expr} (h : e.IsSeparable) {cs : List Char}
    (hcs : (e.signature indices).toList = '(' :: cs) :
    ∃ l r, l.IsSeparable ∧ r.IsSeparable ∧ e = .binop .mul l r := by
  refine (h.tagged_or_mul indices).resolve_left ?_
  rintro ⟨tag, htag, t, -, heq⟩
  rw [heq] at hcs
  simp only [leafTags, List.mem_cons, List.not_mem_nil, or_false] at htag
  rcases htag with rfl | rfl | rfl <;> simp at hcs

/-- A text in a first factor does not reach over the star, if it has no colon: after the star comes
another tag. -/
theorem IsSeparable.not_overlap_text {l r : Expr} (hl : l.IsSeparable) (hr : r.IsSeparable)
    {tag t : String} (htag : tag ∈ leafTags) (ht : ':' ∉ t.toList) {m rest : List Char}
    (hlong : tag.toList ++ ':' :: t.toList = (l.signature indices).toList ++ '*' :: m)
    (hshort : (r.signature indices).toList = m ++ '*' :: rest) : False := by
  have hm : ':' ∉ m := by
    obtain ⟨x, y, hxy, -, -⟩ := hl.exists_colon indices
    rw [hxy] at hlong
    have hcount := congrArg (List.count ':') hlong
    have htag : tag.toList.count ':' = 0 :=
      List.count_eq_zero.2 fun hc => (by cases isWord_of_mem_leafTags htag _ hc)
    have ht := List.count_eq_zero.2 ht
    simp [htag, ht] at hcount
    exact List.count_eq_zero.1 (by omega)
  obtain ⟨x, y, hxy, hcolon, hstar⟩ := hr.exists_colon indices
  rw [hxy] at hshort
  rcases List.append_eq_append_iff.1 hshort with ⟨z, rfl, hz⟩ | ⟨z, rfl, hz⟩
  · cases z with
    | nil => cases hz
    | cons d z =>
      obtain ⟨rfl, -⟩ := List.cons.inj hz
      simp at hm
  · cases z with
    | nil => cases hz
    | cons d z =>
      obtain ⟨rfl, -⟩ := List.cons.inj hz
      simp at hstar

/-- A text in a first factor does not reach over the star, if it has none outside its brackets: all
brackets before the star are closed. -/
theorem IsSeparable.not_overlap_uncut {l : Expr} (hl : l.IsSeparable) {tag t : String}
    (htag : tag ∈ leafTags) (ht : uncut '*' 0 t.toList) {m : List Char}
    (hlong : tag.toList ++ ':' :: t.toList = (l.signature indices).toList ++ '*' :: m) : False := by
  have hstar : '*' ∉ tag.toList ++ [':'] := by
    intro hmem
    rcases List.mem_append.1 hmem with hc | hc
    · cases isWord_of_mem_leafTags htag _ hc
    · simp at hc
  have huncut : uncut '*' 0 (tag.toList ++ ':' :: t.toList) := by
    rw [List.append_cons, uncut_append, uncut_of_not_mem hstar, foldl_depthAfter_plain (isPlain_tag htag),
      ht, Bool.and_self]
  rw [hlong, uncut_append, foldl_depthAfter_balanced hl.balanced_signature] at huncut
  simp [uncut] at huncut

/-- **The star of a product stands in one place**: what follows the first factor of one reading is not
inside the first factor of the other. -/
theorem IsSeparable.not_overlap {l l' r : Expr} (hl : l.IsSeparable) (hl' : l'.IsSeparable)
    (hr : r.IsSeparable) {m rest : List Char}
    (hlong : (l'.signature indices).toList = (l.signature indices).toList ++ '*' :: m)
    (hshort : (r.signature indices).toList = m ++ '*' :: rest) : False := by
  rcases hl'.tagged_or_mul indices with ⟨tag, htag, t, ht, heq⟩ | ⟨a, b, ha, hb, rfl⟩
  · rw [heq, toList_tagged] at hlong
    rcases ht.ends with hcolon | huncut
    · exact hl.not_overlap_text hr htag hcolon hlong hshort
    · exact hl.not_overlap_uncut htag huncut hlong
  · -- The long factor is a product, so the short one is, and it closes before the long one may.
    rw [toList_signature_mul, List.cons_append] at hlong
    obtain ⟨c, cs, hc⟩ : ∃ c cs, (l.signature indices).toList = c :: cs := by
      obtain ⟨x, y, hxy, -, -⟩ := hl.exists_colon indices
      exact List.exists_cons_of_ne_nil (by simp [hxy])
    rw [hc] at hlong
    obtain ⟨rfl, htail⟩ := List.cons.inj hlong
    obtain ⟨p, q, hp, hq, rfl⟩ := hl.mul_of_paren hc
    have hinner {p q : Expr} (hp : p.IsSeparable) (hq : q.IsSeparable) :
        balanced ((p.signature indices).toList ++ '*' :: (q.signature indices).toList) := by
      rw [balanced_append hp.balanced_signature, balanced, balancedFrom_plain rfl]
      exact hq.balanced_signature
    rw [toList_signature_mul, List.cons_append] at hc
    obtain ⟨-, rfl⟩ := List.cons.inj hc
    have htail : ((a.signature indices).toList ++ '*' :: (b.signature indices).toList) ++ [')'] =
        ((p.signature indices).toList ++ '*' :: (q.signature indices).toList) ++ ')' :: '*' :: m :=
      htail.trans (by simp)
    rcases List.append_eq_append_iff.1 htail with ⟨z, hz, hrest⟩ | ⟨z, hz, hrest⟩
    · cases z with
      | nil => simp at hrest
      | cons d z => simp at hrest
    · cases z with
      | nil => simp at hrest
      | cons d z =>
        obtain ⟨rfl, -⟩ := List.cons.inj hrest
        exact not_balanced_closing (hinner hp hq) (hz ▸ hinner ha hb)

/-- **Signatures tell coefficients apart but for the signs of zeros.** -/
theorem plainZeros_eq_of_signature {e e' : Expr} (he : e.IsSeparable) (he' : e'.IsSeparable)
    (h : e.signature indices = e'.signature indices) : e.plainZeros = e'.plainZeros := by
  replace h := congrArg String.toList h
  induction he generalizing e' with
  | number x =>
    cases he' with
    | number y =>
      have htext : numberChars x = numberChars y := by
        simpa [number, signature, Constant.text, numberText] using h
      rw [Expr.number, Expr.number, plainZeros, plainZeros, plainZero_eq_of_numberChars htext]
    | var | index | mul => simp [number, signature] at h
  | var =>
    cases he' with
    | var => simpa [signature, String.toList_inj, plainZeros] using h
    | number | index | mul => simp [number, signature] at h
  | index =>
    cases he' with
    | index => simpa [signature, String.toList_inj, plainZeros] using h
    | number | var | mul => simp [number, signature] at h
  | @mul l r hl hr ihl ihr =>
    rw [toList_signature_mul, List.cons_append] at h
    obtain ⟨l', r', hl', hr', rfl⟩ := he'.mul_of_paren h.symm
    rw [toList_signature_mul, List.cons_append] at h
    have hinner := List.append_cancel_right (List.cons.inj h).2
    have hcut : (l.signature indices).toList = (l'.signature indices).toList ∧
        (r.signature indices).toList = (r'.signature indices).toList := by
      rcases List.append_eq_append_iff.1 hinner with ⟨z, hz, hrest⟩ | ⟨z, hz, hrest⟩
      · cases z with
        | nil => simpa [hz] using hrest
        | cons d z =>
          obtain ⟨rfl, hr₀⟩ := List.cons.inj hrest
          exact (hl.not_overlap hl' hr hz hr₀).elim
      · cases z with
        | nil => simpa [hz] using hrest.symm
        | cons d z =>
          obtain ⟨rfl, hr₀⟩ := List.cons.inj hrest
          exact (hl'.not_overlap hl hr' hz hr₀).elim
    rw [plainZeros, plainZeros, ihl hl' hcut.1, ihr hr' hcut.2]

/-- **Coefficients without negative zeros are told apart by their signatures.** -/
theorem signature_inj {e e' : Expr} (he : e.IsCoefficient) (he' : e'.IsCoefficient)
    (hz : e.NoNegativeZero) (hz' : e'.NoNegativeZero)
    (h : e.signature indices = e'.signature indices) : e = e' := by
  rw [← he.isSeparable.plainZeros_eq hz, ← he'.isSeparable.plainZeros_eq hz']
  exact plainZeros_eq_of_signature he.isSeparable he'.isSeparable h

end

end Expr

/-! ## Calls -/

/-- A whole number that is a double. -/
def Decimal.Whole.OnGrid (w : Whole) : Prop :=
  onDoubleGrid w.toInt = w.toInt

/-- A call as it is read: its target is a name, and it has a shift that is a double for each index. -/
structure Call.Spelled (rank : Nat) (c : Call) : Prop where
  target : ∀ t, c.target = some t → isIdentifier t
  length : c.shifts.length = rank
  shifts : ∀ w ∈ c.shifts, w.OnGrid

theorem onGrid_zero : (0 : Whole).OnGrid := rfl

/-- A shift of a call is a double. Missing shifts are zero. -/
theorem Call.Spelled.onGrid_shiftAt {rank : Nat} {c : Call} (h : c.Spelled rank) (slot : Nat) :
    onDoubleGrid (c.shiftAt slot) = c.shiftAt slot := by
  rw [Call.shiftAt, Call.wholeShiftAt]
  cases hslot : c.shifts[slot]? with
  | none => exact onGrid_zero
  | some w => exact h.shifts w (List.mem_of_getElem? hslot)

/-- The characters of a name. -/
theorem isWord_of_isName {cs : List Char} (h : isName cs) : ∀ c ∈ cs, isWord c := by
  cases cs with
  | nil => cases h
  | cons c cs =>
    obtain ⟨hc, hcs⟩ := Bool.and_eq_true_iff.1 h
    exact List.forall_mem_cons.2 ⟨by simp [isWord, hc], List.all_eq_true.1 hcs⟩

theorem isWord_of_isIdentifier {n : String} (h : isIdentifier n) : ∀ c ∈ n.toList, isWord c :=
  isWord_of_isName h

/-- The shifts of a call by name. -/
def Call.pairs (indices : List String) (c : Call) : List String :=
  indices.zipIdx.map fun (name, slot) => name ++ ":" ++ intText (c.shiftAt slot)

section
variable {indices : List String}

/-- A name that is an identifier has no comma. -/
theorem comma_not_mem_of_isIdentifier {n : String} (h : isIdentifier n) : ',' ∉ n.toList := fun hmem => by
  cases isWord_of_isIdentifier h _ hmem

/-- A pair has no comma if its name has none. -/
theorem Call.comma_not_mem_pair (hcomma : ∀ i ∈ indices, ',' ∉ i.toList) {c : Call} {p : String}
    (hp : p ∈ c.pairs indices) : ',' ∉ p.toList := by
  obtain ⟨⟨name, slot⟩, hmem, rfl⟩ := List.mem_map.1 hp
  intro h
  simp only [String.toList_append, List.append_assoc, List.mem_append] at h
  rcases h with h | h | h
  · exact hcomma name (List.fst_mem_of_mem_zipIdx hmem) h
  · simp at h
  · cases (spells_intText _).not_isJoint _ h

/-- The target of a call is known from its text. -/
theorem Call.target_eq {rank : Nat} {c d : Call} (hc : c.Spelled rank) (hd : d.Spelled rank)
    (h : (c.target.getD "").toList = (d.target.getD "").toList) : c.target = d.target := by
  have hne {c : Call} (hc : c.Spelled rank) {t : String} (ht : c.target = some t) : t.toList ≠ [] := by
    intro hnil
    have hname := hc.target t ht
    rw [isIdentifier, hnil] at hname
    cases hname
  cases hct : c.target with
  | none =>
    cases hdt : d.target with
    | none => rfl
    | some t => exact absurd (by simpa [hct, hdt] using h) (hne hd hdt)
  | some t =>
    cases hdt : d.target with
    | none => exact absurd (by simpa [hct, hdt] using h) (hne hc hct)
    | some t' => simpa [hct, hdt, String.toList_inj] using h

/-- The shift of an index is known from the pairs. -/
theorem Call.shiftAt_of_pairs (hnodup : indices.Nodup) {rank : Nat} (hrank : rank ≤ indices.length)
    {c d : Call} (hc : c.Spelled rank) (hd : d.Spelled rank)
    (h : (c.pairs indices).Perm (d.pairs indices)) {slot : Nat} (hslot : slot < rank) :
    c.shiftAt slot = d.shiftAt slot := by
  have htext (i : Int) : ':' ∉ (intText i).toList := fun hmem => by
    cases (spells_intText i).not_isJoint _ hmem
  have hnamed : slot < indices.length := hslot.trans_le hrank
  have hmem : indices[slot] ++ ":" ++ intText (c.shiftAt slot) ∈ d.pairs indices :=
    h.mem_iff.1 (List.mem_map.2 ⟨(indices[slot], slot), List.mk_mem_zipIdx_iff_getElem?.2
      (List.getElem?_eq_getElem hnamed), rfl⟩)
  obtain ⟨⟨name, slot'⟩, hzip, heq⟩ := List.mem_map.1 hmem
  have hname := List.mk_mem_zipIdx_iff_getElem?.1 hzip
  obtain ⟨hslot', rfl⟩ := List.getElem?_eq_some_iff.1 hname
  have hparts := congrArg String.toList heq
  simp only [String.toList_append, List.append_assoc] at hparts
  obtain ⟨hnames, hshifts⟩ := append_cons_inj_last (htext _) (htext _) hparts
  obtain rfl := (List.Nodup.getElem_inj_iff hnodup).1 (String.toList_injective hnames)
  exact (intText_inj (hd.onGrid_shiftAt _) (hc.onGrid_shiftAt _) (String.toList_injective hshifts)).symm

/-- **Calls are told apart by their signatures**, the sign of a zero shift aside. -/
theorem Call.signature_inj (hcomma : ∀ i ∈ indices, ',' ∉ i.toList) (hnodup : indices.Nodup)
    {rank : Nat} (hrank : rank ≤ indices.length) {c d : Call} (hc : c.Spelled rank) (hd : d.Spelled rank)
    (h : c.signature indices = d.signature indices) :
    c.target = d.target ∧ c.shifts.map Whole.toInt = d.shifts.map Whole.toInt := by
  have hsig (c : Call) : (c.signature indices).toList = (c.target.getD "").toList ++
      '[' :: ([','].intercalate ((sortByUnits (c.pairs indices)).map String.toList) ++ [']']) := by
    simp [Call.signature, Call.pairs, String.toList_intercalate]
  have hsorted (c : Call) : (sortByUnits (c.pairs indices)).Perm (c.pairs indices) := sortBy_perm _ _
  have hpart (c : Call) :
      ∀ l ∈ (sortByUnits (c.pairs indices)).map String.toList, l ≠ [] ∧ ',' ∉ l := by
    intro l hl
    obtain ⟨p, hp, rfl⟩ := List.mem_map.1 hl
    have hp := (hsorted c).mem_iff.1 hp
    refine ⟨?_, Call.comma_not_mem_pair hcomma hp⟩
    obtain ⟨⟨name, slot⟩, -, rfl⟩ := List.mem_map.1 hp
    simp
  have hbracket {c : Call} (hc : c.Spelled rank) : '[' ∉ (c.target.getD "").toList := by
    cases htarget : c.target with
    | none => simp
    | some t =>
      intro hmem
      cases isWord_of_isIdentifier (hc.target t htarget) _ hmem
  have h := congrArg String.toList h
  rw [hsig, hsig] at h
  obtain ⟨htarget, hpairs⟩ := append_cons_inj_first (hbracket hc) (hbracket hd) h
  have hpairs := intercalate_inj (hpart c) (hpart d) (List.append_cancel_right hpairs)
  have hperm : (c.pairs indices).Perm (d.pairs indices) := by
    have hsame := List.map_inj_right (fun _ _ => String.toList_injective) |>.1 hpairs
    exact (hsorted c).symm.trans (hsame ▸ hsorted d)
  refine ⟨Call.target_eq hc hd htarget, List.ext_getElem (by simp [hc.length, hd.length]) ?_⟩
  intro slot hslot hslot'
  simp only [List.length_map] at hslot hslot'
  have hshift := Call.shiftAt_of_pairs hnodup hrank hc hd hperm (hc.length ▸ hslot)
  simpa [Call.shiftAt, Call.wholeShiftAt, hslot, hslot'] using hshift

end

end RecurrenceCompiler
