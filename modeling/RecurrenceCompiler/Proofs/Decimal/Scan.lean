import Mathlib
import RecurrenceCompiler.Decimal.Reader

/-!
# Where a number literal ends

A literal is read up to the first character that cannot continue it. `isJoint` names the characters
that continue neither a literal nor a name, wherever they stand: blanks, brackets, commas and the
operators other than the two signs, which may stand inside an exponent. What is read before a joint
does not depend on what follows it (`Literal.scan?_append`), so text cut at joints can be scanned
piece by piece. A literal whose parts are what they are called is read back from its characters
(`Literal.scan?_chars`).
-/

namespace RecurrenceCompiler.Decimal

open Text

/-- A character that neither continues a literal nor a name. -/
def isJoint (c : Char) : Bool :=
  !isWord c && c != '.' && c != '+' && c != '-'

/-- A joint is no word character. -/
theorem isWord_of_isJoint {c : Char} (h : isJoint c) : isWord c = false := by
  simp only [isJoint, Bool.and_eq_true, Bool.not_eq_eq_eq_not, Bool.not_true] at h
  exact h.1.1.1

/-- A joint is no digit. -/
theorem isDigit_of_isJoint {c : Char} (h : isJoint c) : isDigit c = false :=
  (Bool.or_eq_false_iff.1 (isWord_of_isJoint h)).2

/-- A joint starts no name. -/
theorem isNameStart_of_isJoint {c : Char} (h : isJoint c) : isNameStart c = false :=
  (Bool.or_eq_false_iff.1 (isWord_of_isJoint h)).1

/-- A digit starts no name. -/
theorem isNameStart_of_isDigit {c : Char} (h : isDigit c) : isNameStart c = false := by
  simp only [isDigit, Bool.and_eq_true, decide_eq_true_eq, Char.le_def, UInt32.le_iff_toNat_le,
    Char.toNat_val, Char.reduceVal, UInt32.reduceToNat] at h
  simp only [isNameStart, Bool.or_eq_false_iff, Bool.and_eq_false_iff, decide_eq_false_iff_not,
    Char.le_def, Char.ext_iff, UInt32.le_iff_toNat_le, ← UInt32.toNat_inj, Char.toNat_val,
    beq_eq_false_iff_ne, ne_eq, Char.reduceVal, UInt32.reduceToNat]
  omega

/-- A blank is a joint. -/
theorem isJoint_of_isBlank {c : Char} (h : isBlank c) : isJoint c := by
  simp only [isBlank, Bool.or_eq_true, Bool.and_eq_true, decide_eq_true_eq, beq_iff_eq] at h
  simp only [isJoint, isWord, isNameStart, isDigit, Bool.and_eq_true, Bool.not_eq_true',
    Bool.or_eq_false_iff, Bool.and_eq_false_iff, decide_eq_false_iff_not, bne_iff_ne, ne_eq,
    Char.le_def, Char.ext_iff, UInt32.le_iff_toNat_le, ← UInt32.toNat_inj, Char.toNat_val,
    beq_eq_false_iff_ne, Char.reduceVal, UInt32.reduceToNat]
  omega

/-! ## Runs of characters -/

/-- A run ends before a character that is not of its kind. -/
theorem takeWhile_append_stop {p : Char → Bool} {c : Char} (h : p c = false) (a b : List Char) :
    (a ++ c :: b).takeWhile p = a.takeWhile p := by
  induction a with
  | nil => simp [h]
  | cons d a ih => by_cases hd : p d <;> simp [hd, ih]

/-- What follows a run goes on to a character that is not of its kind. -/
theorem dropWhile_append_stop {p : Char → Bool} {c : Char} (h : p c = false) (a b : List Char) :
    (a ++ c :: b).dropWhile p = a.dropWhile p ++ c :: b := by
  induction a with
  | nil => simp [h]
  | cons d a ih => by_cases hd : p d <;> simp [hd, ih]

/-- A run of characters of one kind is all of itself. -/
theorem takeWhile_append_of_all {p : Char → Bool} {a : List Char} (h : a.all p) (b : List Char) :
    (a ++ b).takeWhile p = a ++ b.takeWhile p :=
  List.takeWhile_append_of_pos (List.all_eq_true.1 h)

/-- Nothing of a run of characters of one kind is left behind it. -/
theorem dropWhile_append_of_all {p : Char → Bool} {a : List Char} (h : a.all p) (b : List Char) :
    (a ++ b).dropWhile p = b.dropWhile p :=
  List.dropWhile_append_of_pos (List.all_eq_true.1 h)

/-! ## Literals before a joint -/

/-- An exponent is read up to a joint. -/
theorem scanExponent?_append {c : Char} (h : isJoint c) (a b : List Char) :
    scanExponent? (a ++ c :: b) = (scanExponent? a).map fun p => (p.1, p.2 ++ c :: b) := by
  have hd := isDigit_of_isJoint h
  have hc : c ≠ 'e' ∧ c ≠ 'E' ∧ c ≠ '+' ∧ c ≠ '-' := by
    refine ⟨?_, ?_, ?_, ?_⟩ <;> rintro rfl <;> contradiction
  rcases a with _ | ⟨e, _ | ⟨s, a⟩⟩
  · simp [scanExponent?, hc]
  · simp [scanExponent?, hc, hd]
  · simp only [List.cons_append, scanExponent?]
    by_cases he : e == 'e' || e == 'E'
    · by_cases hp : s = '+'
      · subst hp
        simp only [he, if_true, takeWhile_append_stop hd, dropWhile_append_stop hd]
        split <;> rfl
      · by_cases hm : s = '-'
        · subst hm
          simp only [he, if_true, takeWhile_append_stop hd, dropWhile_append_stop hd]
          split <;> rfl
        · have ht := takeWhile_append_stop hd (s :: a) b
          have hr := dropWhile_append_stop hd (s :: a) b
          simp only [List.cons_append] at ht hr
          simp [he, hp, hm, ht, hr]
          split <;> rfl
    · simp [he]

/-- A literal is completed by its exponent up to a joint. -/
theorem Literal.withExponent_append {c : Char} (h : isJoint c) (l : Literal) (a b : List Char) :
    l.withExponent (a ++ c :: b) = ((l.withExponent a).1, (l.withExponent a).2 ++ c :: b) := by
  simp only [withExponent, scanExponent?_append h]
  cases scanExponent? a <;> rfl

/-- A literal is read up to a joint. -/
theorem Literal.scan?_append {c : Char} (h : isJoint c) (a b : List Char) :
    Literal.scan? (a ++ c :: b) = (Literal.scan? a).map fun p => (p.1, p.2 ++ c :: b) := by
  have hd := isDigit_of_isJoint h
  have hc : c ≠ '.' := by rintro rfl; contradiction
  simp only [scan?, takeWhile_append_stop hd, dropWhile_append_stop hd]
  rcases a.dropWhile isDigit with _ | ⟨d, r⟩
  · have hw := Literal.withExponent_append h ⟨a.takeWhile isDigit, false, [], none⟩ [] b
    have hno : ∀ after, c :: b = '.' :: after → False := by simp [hc]
    rw [List.nil_append] at hw
    by_cases he : (a.takeWhile isDigit).isEmpty
    · simp only [List.nil_append, if_pos he, Option.map_none]
    · simp only [List.nil_append, if_neg he, hw, Option.map_some]
  · by_cases hp : d = '.'
    · subst hp
      simp only [List.cons_append, takeWhile_append_stop hd, dropWhile_append_stop hd,
        withExponent_append h]
      split <;> rfl
    · have hw := Literal.withExponent_append h ⟨a.takeWhile isDigit, false, [], none⟩ (d :: r) b
      have hno : ∀ after, d :: r = '.' :: after → False := by simp [hp]
      have hno' : ∀ after, d :: (r ++ c :: b) = '.' :: after → False := by simp [hp]
      rw [List.cons_append] at hw
      by_cases he : (a.takeWhile isDigit).isEmpty
      · simp only [List.cons_append, if_pos he, Option.map_none]
      · simp only [List.cons_append, if_neg he, hw, Option.map_some]

/-! ## What a literal takes -/

/-- An exponent is read off the front of a text. -/
theorem chars_of_scanExponent? {cs rest : List Char} {e s ds}
    (h : scanExponent? cs = some ((e, s, ds), rest)) :
    cs = e :: (s.toList ++ ds) ++ rest := by
  rcases cs with _ | ⟨c, cs⟩
  · cases h
  · simp only [scanExponent?] at h
    split at h
    · split at h <;>
      · split at h
        · contradiction
        · simp only [Option.some.injEq, Prod.mk.injEq] at h
          obtain ⟨⟨rfl, rfl, rfl⟩, rfl⟩ := h
          simp
    · contradiction

/-- The exponent of a literal is read off the front of a text. -/
theorem Literal.withExponent_chars {l : Literal} (hl : l.exponent = none) (cs : List Char) :
    (l.withExponent cs).1.chars ++ (l.withExponent cs).2 = l.chars ++ cs := by
  rw [Literal.withExponent]
  cases he : scanExponent? cs with
  | none => rfl
  | some p =>
    obtain ⟨⟨e, s, ds⟩, rest⟩ := p
    simp [Literal.chars, hl, chars_of_scanExponent? he]

/-- A literal is read off the front of a text. -/
theorem chars_of_scan? {cs rest : List Char} {l} (h : Literal.scan? cs = some (l, rest)) :
    cs = l.chars ++ rest := by
  have hcs := List.takeWhile_append_dropWhile (p := isDigit) (l := cs)
  simp only [Literal.scan?] at h
  split at h
  · next after hr =>
    split at h
    · contradiction
    · have hw := Literal.withExponent_chars
        (l := ⟨cs.takeWhile isDigit, true, after.takeWhile isDigit, none⟩) rfl
        (after.dropWhile isDigit)
      rw [Option.some.inj h] at hw
      calc cs = cs.takeWhile isDigit ++ '.' :: after := by rw [← hr, hcs]
        _ = l.chars ++ rest := by rw [hw]; simp [Literal.chars]
  · split at h
    · contradiction
    · have hw := Literal.withExponent_chars
        (l := ⟨cs.takeWhile isDigit, false, [], none⟩) rfl (cs.dropWhile isDigit)
      rw [Option.some.inj h] at hw
      rw [hw]
      simp [Literal.chars]

/-- A literal starts with a digit or a point. -/
theorem head_of_scan? {c : Char} {cs : List Char} {p} (h : Literal.scan? (c :: cs) = some p) :
    isDigit c ∨ c = '.' := by
  by_cases hd : isDigit c
  · exact .inl hd
  · refine .inr ?_
    simp only [Literal.scan?, List.takeWhile_cons, List.dropWhile_cons, hd] at h
    split at h
    · simp_all
    · simp at h

/-- No literal starts with another character. -/
theorem scan?_eq_none {c : Char} (hd : isDigit c = false) (hp : c ≠ '.') (cs : List Char) :
    Literal.scan? (c :: cs) = none := by
  cases hs : Literal.scan? (c :: cs) with
  | none => rfl
  | some p =>
    rcases head_of_scan? hs with h | h
    · exact absurd h (by simp [hd])
    · exact absurd h hp

/-- No literal starts with the first character of a name. -/
theorem scan?_eq_none_of_isNameStart {c : Char} (h : isNameStart c) (cs : List Char) :
    Literal.scan? (c :: cs) = none := by
  refine scan?_eq_none ?_ (by rintro rfl; contradiction) cs
  simp only [isNameStart, isDigit, Bool.or_eq_true, Bool.and_eq_true, decide_eq_true_eq,
    Bool.and_eq_false_iff, decide_eq_false_iff_not, beq_iff_eq, Char.le_def, Char.ext_iff,
    UInt32.le_iff_toNat_le, ← UInt32.toNat_inj, Char.toNat_val, Char.reduceVal,
    UInt32.reduceToNat] at h ⊢
  omega

/-! ## Literals read back -/

/-- The parts of a literal are what they are called. -/
structure Literal.WellFormed (l : Literal) : Prop where
  whole : l.whole.all isDigit
  fraction : l.fraction.all isDigit
  point : l.point = false → l.fraction = []
  digits : l.whole ≠ [] ∨ l.fraction ≠ []
  exponent : ∀ e s ds, l.exponent = some (e, s, ds) →
    (e = 'e' ∨ e = 'E') ∧ (s = none ∨ s = some '+' ∨ s = some '-') ∧ ds ≠ [] ∧ ds.all isDigit

/-- The parts of an exponent that is read are what they are called. -/
theorem wellFormed_of_scanExponent? {cs rest : List Char} {e s ds}
    (h : scanExponent? cs = some ((e, s, ds), rest)) :
    (e = 'e' ∨ e = 'E') ∧ (s = none ∨ s = some '+' ∨ s = some '-') ∧ ds ≠ [] ∧ ds.all isDigit := by
  rcases cs with _ | ⟨c, cs⟩
  · cases h
  · simp only [scanExponent?] at h
    split at h
    · next hc =>
      split at h <;>
      · split at h
        · contradiction
        · simp only [Option.some.injEq, Prod.mk.injEq] at h
          obtain ⟨⟨rfl, rfl, rfl⟩, rfl⟩ := h
          refine ⟨by simpa using hc, by simp, by simp_all, List.all_takeWhile⟩
    · contradiction

/-- The exponent makes a literal of a literal. -/
theorem Literal.WellFormed.withExponent {l : Literal} (h : l.WellFormed) (cs : List Char) :
    (l.withExponent cs).1.WellFormed := by
  rw [Literal.withExponent]
  cases he : scanExponent? cs with
  | none => exact h
  | some p =>
    refine ⟨h.whole, h.fraction, h.point, h.digits, ?_⟩
    rintro e s ds heq
    obtain ⟨⟨e', s', ds'⟩, rest⟩ := p
    cases heq
    exact wellFormed_of_scanExponent? he

/-- What is read as a literal is one. -/
theorem wellFormed_of_scan? {cs rest : List Char} {l} (h : Literal.scan? cs = some (l, rest)) :
    l.WellFormed := by
  simp only [Literal.scan?] at h
  split at h <;> split at h
  · contradiction
  · next after hr hne =>
    have hl : _ = l := congrArg Prod.fst (Option.some.inj h)
    rw [← hl]
    refine Literal.WellFormed.withExponent ⟨List.all_takeWhile, List.all_takeWhile, by simp, ?_, by simp⟩ _
    by_contra hn
    obtain ⟨hw, hf⟩ := not_or.1 hn
    exact hne (by simp only [not_not] at hw hf; simp [hw, hf])
  · contradiction
  · next hne =>
    have hl : _ = l := congrArg Prod.fst (Option.some.inj h)
    rw [← hl]
    exact Literal.WellFormed.withExponent ⟨List.all_takeWhile, rfl, by simp, by simpa using hne, by simp⟩ _

/-- Reading a literal takes at least one character. -/
theorem length_of_scan? {cs rest : List Char} {l} (h : Literal.scan? cs = some (l, rest)) :
    rest.length < cs.length := by
  have hne : l.chars ≠ [] := by
    rcases (wellFormed_of_scan? h).digits with hd | hd <;> simp [Literal.chars, hd]
  have hlen := congrArg List.length (chars_of_scan? h)
  have hpos := List.length_pos_iff.2 hne
  rw [List.length_append] at hlen
  omega

/-- A word character is no joint. -/
theorem isJoint_of_isWord {c : Char} (h : isWord c) : isJoint c = false := by
  simp [isJoint, h]

/-- A digit is no joint. -/
theorem isJoint_of_isDigit {c : Char} (h : isDigit c) : isJoint c = false :=
  isJoint_of_isWord (by simp [isWord, h])

/-- No character of a literal is a joint. -/
theorem Literal.WellFormed.not_isJoint {l : Literal} (h : l.WellFormed) :
    ∀ c ∈ l.chars, isJoint c = false := by
  intro c hc
  simp only [Literal.chars, List.mem_append] at hc
  rcases hc with ((hc | hc) | hc) | hc
  · exact isJoint_of_isDigit (List.all_eq_true.1 h.whole c hc)
  · split at hc
    · obtain rfl := List.mem_singleton.1 hc
      rfl
    · cases hc
  · exact isJoint_of_isDigit (List.all_eq_true.1 h.fraction c hc)
  · split at hc
    · cases hc
    · next e s ds hx =>
      obtain ⟨he, hs, -, hds⟩ := h.exponent e s ds hx
      simp only [List.mem_cons, List.mem_append] at hc
      rcases hc with rfl | hc | hc
      · rcases he with rfl | rfl <;> rfl
      · rcases hs with rfl | rfl | rfl <;> simp_all <;> rfl
      · exact isJoint_of_isDigit (List.all_eq_true.1 hds c hc)

/-- What stops a literal: no digit follows, and before the exponent neither an exponent nor, before
the point, a point. -/
structure Literal.Stops (l : Literal) (rest : List Char) : Prop where
  digit : ∀ c ∈ rest.head?, isDigit c = false
  exponent : l.exponent = none → scanExponent? rest = none
  point : l.exponent = none → l.point = false → rest.head? ≠ some '.'

/-- A run of digits that is followed by none. -/
theorem takeWhile_digits {a rest : List Char} (ha : a.all isDigit)
    (h : ∀ c ∈ rest.head?, isDigit c = false) : (a ++ rest).takeWhile isDigit = a := by
  rw [takeWhile_append_of_all ha]
  cases rest with
  | nil => simp
  | cons c rest => simp [h c (by simp)]

/-- What follows a run of digits that is followed by none. -/
theorem dropWhile_digits {a rest : List Char} (ha : a.all isDigit)
    (h : ∀ c ∈ rest.head?, isDigit c = false) : (a ++ rest).dropWhile isDigit = rest := by
  have hsplit := List.takeWhile_append_dropWhile (p := isDigit) (l := a ++ rest)
  rw [takeWhile_digits ha h] at hsplit
  exact List.append_cancel_left hsplit

/-- A written exponent is read back. -/
theorem scanExponent?_chars {e : Char} {s : Option Char} {ds rest : List Char}
    (he : e = 'e' ∨ e = 'E') (hs : s = none ∨ s = some '+' ∨ s = some '-') (hne : ds ≠ [])
    (hds : ds.all isDigit) (hrest : ∀ c ∈ rest.head?, isDigit c = false) :
    scanExponent? (e :: (s.toList ++ ds) ++ rest) = some ((e, s, ds), rest) := by
  have he' : (e == 'e' || e == 'E') = true := by simpa using he
  have ht := takeWhile_digits hds hrest
  have hd := dropWhile_digits hds hrest
  obtain ⟨d, ds, rfl⟩ := List.exists_cons_of_ne_nil hne
  have hdig : isDigit d := List.all_eq_true.1 hds d (by simp)
  have hplus : d ≠ '+' := by rintro rfl; contradiction
  have hminus : d ≠ '-' := by rintro rfl; contradiction
  rw [List.cons_append] at ht hd
  rcases hs with rfl | rfl | rfl <;> simp [scanExponent?, he', ht, hd, hplus, hminus]

/-- The characters of an exponent part. -/
def exponentChars : Option (Char × Option Char × List Char) → List Char
  | none => []
  | some (e, sign, digits) => e :: (sign.toList ++ digits)

/-- A literal without its exponent is completed by the characters of the exponent. -/
theorem Literal.withExponent_exponentChars {l : Literal} (h : l.WellFormed) {rest : List Char}
    (hrest : l.Stops rest) :
    (Literal.mk l.whole l.point l.fraction none).withExponent (exponentChars l.exponent ++ rest) =
      (l, rest) := by
  obtain ⟨whole, point, fraction, exponent⟩ := l
  rcases exponent with _ | ⟨e, s, ds⟩
  · simp [Literal.withExponent, exponentChars, hrest.exponent rfl]
  · obtain ⟨he, hs, hne, hds⟩ := h.exponent e s ds rfl
    have hscan := scanExponent?_chars he hs hne hds hrest.digit
    simp only [Literal.withExponent, exponentChars, hscan]

/-- No digit follows the digits of a literal: its exponent starts with a letter. -/
theorem Literal.Stops.exponentChars {l : Literal} (h : l.WellFormed) {rest : List Char}
    (hrest : l.Stops rest) :
    ∀ c ∈ (exponentChars l.exponent ++ rest).head?, isDigit c = false := by
  rcases hx : l.exponent with _ | ⟨e, s, ds⟩
  · exact hrest.digit
  · rintro c hc
    obtain rfl : e = c := by simpa [Decimal.exponentChars] using hc
    rcases (h.exponent e s ds hx).1 with rfl | rfl <;> rfl

/-- **A literal is read back from its characters** before anything that stops it. -/
theorem Literal.scan?_chars {l : Literal} (h : l.WellFormed) {rest : List Char}
    (hrest : l.Stops rest) : Literal.scan? (l.chars ++ rest) = some (l, rest) := by
  have hchars : l.chars ++ rest = l.whole ++ ((if l.point then ['.'] else []) ++
      (l.fraction ++ (exponentChars l.exponent ++ rest))) := by
    simp only [Literal.chars, List.append_assoc]
    rfl
  have hdigit := hrest.exponentChars h
  have hexp := Literal.withExponent_exponentChars h hrest
  obtain ⟨whole, point, fraction, exponent⟩ := l
  cases point with
  | true =>
    have hne : ¬(whole.isEmpty && fraction.isEmpty) = true := by
      rcases h.digits with hw | hf
      · simpa using fun hn => absurd hn hw
      · simpa using fun _ => hf
    have hdot : ∀ c ∈ ('.' :: (fraction ++ (exponentChars exponent ++ rest))).head?,
        isDigit c = false := by simp [isDigit]
    rw [hchars, Literal.scan?]
    simp only [if_true, List.singleton_append, takeWhile_digits h.whole hdot,
      dropWhile_digits h.whole hdot, takeWhile_digits h.fraction hdigit,
      dropWhile_digits h.fraction hdigit, if_neg hne, hexp]
  | false =>
    obtain rfl : fraction = [] := h.point rfl
    have hne : ¬whole.isEmpty = true := by
      rcases h.digits with hw | hf
      · simpa using hw
      · exact absurd rfl hf
    have hno : ∀ after, exponentChars exponent ++ rest = '.' :: after → False := by
      rintro after heq
      rcases exponent with _ | ⟨e, s, ds⟩
      · exact hrest.point rfl rfl (by rw [show rest = _ from heq]; rfl)
      · rcases (h.exponent e s ds rfl).1 with rfl | rfl <;> simp [exponentChars] at heq
    rw [hchars, Literal.scan?]
    simp only [Bool.false_eq_true, if_false, List.nil_append, takeWhile_digits h.whole hdigit,
      dropWhile_digits h.whole hdigit, if_neg hne, hexp]

/-- The end of a text stops a literal. -/
theorem Literal.stops_nil (l : Literal) : l.Stops [] :=
  ⟨by simp, fun _ => rfl, by simp⟩

/-- A run of digits is read to its end. -/
theorem head?_dropWhile_digits (cs : List Char) :
    ∀ c ∈ (cs.dropWhile isDigit).head?, isDigit c = false := by
  intro c hc
  have hhead := List.head?_dropWhile_not isDigit cs
  rw [hc] at hhead
  exact hhead

/-- What is left behind an exponent starts with no digit. -/
theorem digit_of_scanExponent? {cs rest : List Char} {e}
    (h : scanExponent? cs = some (e, rest)) : ∀ c ∈ rest.head?, isDigit c = false := by
  rcases cs with _ | ⟨c, cs⟩
  · cases h
  · simp only [scanExponent?] at h
    split at h
    · split at h <;>
      · split at h
        · contradiction
        · simp only [Option.some.injEq, Prod.mk.injEq] at h
          obtain ⟨-, rfl⟩ := h
          exact head?_dropWhile_digits _
    · contradiction

/-- What is left behind a completed literal stops it. -/
theorem Literal.stops_withExponent (l : Literal) (cs : List Char)
    (hd : ∀ c ∈ cs.head?, isDigit c = false) (hp : l.point = false → cs.head? ≠ some '.') :
    (l.withExponent cs).1.Stops (l.withExponent cs).2 := by
  rw [Literal.withExponent]
  cases he : scanExponent? cs with
  | none => exact ⟨hd, fun _ => he, fun _ => hp⟩
  | some p => exact ⟨digit_of_scanExponent? he, by simp, by simp⟩

/-- What is left behind a literal stops it. -/
theorem stops_of_scan? {cs rest : List Char} {l} (h : Literal.scan? cs = some (l, rest)) :
    l.Stops rest := by
  simp only [Literal.scan?] at h
  split at h <;> split at h
  · contradiction
  · next after hr _ =>
    have hs := Literal.stops_withExponent
      ⟨cs.takeWhile isDigit, true, after.takeWhile isDigit, none⟩ (after.dropWhile isDigit)
      (head?_dropWhile_digits after) (by simp)
    rwa [Option.some.inj h] at hs
  · contradiction
  · next hno _ =>
    have hs := Literal.stops_withExponent
      ⟨cs.takeWhile isDigit, false, [], none⟩ (cs.dropWhile isDigit) (head?_dropWhile_digits cs)
      fun _ hdot => by
        obtain ⟨after, ha⟩ := List.head?_eq_some_iff.1 hdot
        exact hno after ha
    rwa [Option.some.inj h] at hs

/-- Text that goes on with no exponent does so when it is cut short. -/
theorem scanExponent?_of_append {a b : List Char} (h : scanExponent? (a ++ b) = none) :
    scanExponent? a = none := by
  cases ha : scanExponent? a with
  | none => rfl
  | some p =>
    obtain ⟨⟨e, s, ds⟩, r⟩ := p
    obtain ⟨he, hs, hne, hds⟩ := wellFormed_of_scanExponent? ha
    have hall : (ds ++ (r ++ b).takeWhile isDigit).all isDigit := by
      rw [List.all_append, hds, List.all_takeWhile]
      rfl
    have hcs : a ++ b =
        e :: (s.toList ++ (ds ++ (r ++ b).takeWhile isDigit)) ++ (r ++ b).dropWhile isDigit := by
      rw [chars_of_scanExponent? ha]
      simp
    rw [hcs, scanExponent?_chars he hs (by simp [hne]) hall (head?_dropWhile_digits _)] at h
    cases h

/-- What stops a literal still does so when it is cut short. -/
theorem Literal.Stops.of_append {l : Literal} {a b : List Char} (h : l.Stops (a ++ b)) :
    l.Stops a := by
  have hhead : ∀ {c}, a.head? = some c → (a ++ b).head? = some c := by
    intro c hc
    rw [List.head?_append, hc, Option.some_or]
  exact ⟨fun c hc => h.digit c (hhead hc), fun he => scanExponent?_of_append (h.exponent he),
    fun he hp hdot => h.point he hp (hhead hdot)⟩

end RecurrenceCompiler.Decimal
