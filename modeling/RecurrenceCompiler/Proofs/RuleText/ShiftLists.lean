import RecurrenceCompiler.Proofs.RuleText.LiteralCoefficients
import RecurrenceCompiler.Proofs.RuleText.Spacing

/-!
# Lists of shifts

Between the brackets of a call stand components: an index name and its shift, in any order and with any blanks
between their parts. Each component is read as it is written (`shift?_trim`) and sets the slot of its own name
(`parseShifts_eq_ok`); one that names no index, or an index that was named before, is refused
(`parseShifts_eq_error`). A body that consists of one call comes down to its components (`parseBody_call`,
`parseCall_components`).

`MadeOf` says which words a text is made of, whatever the blanks around them. It survives the collapsing of
blanks (`MadeOf.collapseBlanks`), a text is cut at a word of one character (`MadeOf.cut`), and lists of words
with a separator between them are found again when the text is cut at it (`MadeOf.splitTop_eq`).
-/

namespace RecurrenceCompiler.RuleText

open Text Decimal Arith

/-! ## Words with blanks between them -/

/-- A text is made of words, with blanks before, between and behind them or nothing. -/
inductive MadeOf : List (List Char) → List Char → Prop
  | nil {gap : List Char} : Blanks gap → MadeOf [] gap
  | cons {gap word cs : List Char} {words : List (List Char)} :
    Blanks gap → MadeOf words cs → MadeOf (word :: words) (gap ++ (word ++ cs))

/-- Whether a text is made of words, by reading them from the front. -/
def isMadeOf : List (List Char) → List Char → Bool
  | [], cs => cs.all isBlank
  | word :: words, cs =>
    let rest := trimStart cs
    word.isPrefixOf rest && isMadeOf words (rest.drop word.length)

/-- What is read so is made of the words. -/
theorem madeOf_of_isMadeOf {words : List (List Char)} {cs : List Char} (h : isMadeOf words cs) :
    MadeOf words cs := by
  induction words generalizing cs with
  | nil => exact .nil (List.all_eq_true.1 h)
  | cons word words ih =>
    obtain ⟨hword, hrest⟩ := Bool.and_eq_true_iff.1 h
    obtain ⟨rest, heq⟩ := List.isPrefixOf_iff_prefix.1 hword
    have hgap : Blanks (cs.takeWhile isBlank) := List.all_eq_true.1 List.all_takeWhile
    have hcs : cs = cs.takeWhile isBlank ++ (word ++ rest) := by
      rw [heq, trimStart, List.takeWhile_append_dropWhile]
    rw [← heq, List.drop_left] at hrest
    rw [hcs]
    exact .cons hgap (ih hrest)

/-- A word: something without blanks. -/
structure IsWord (word : List Char) : Prop where
  ne_nil : word ≠ []
  visible : ∀ c ∈ word, isBlank c = false

/-- Between blanks stands what its first and its last word enclose. -/
theorem trim_enclosed {gap gap' first last : List Char} (hgap : Blanks gap) (hgap' : Blanks gap')
    (hfirst : IsWord first) (hlast : IsWord last) (cs : List Char) :
    trim (gap ++ (first ++ (cs ++ (last ++ gap')))) = first ++ (cs ++ last) := by
  have hsplit : gap ++ (first ++ (cs ++ (last ++ gap'))) = gap ++ ((first ++ (cs ++ last)) ++ gap') := by simp
  rw [hsplit, trim_blanks_append hgap, trim_append_blanks hgap']
  refine trim_eq_self (fun c hc => ?_) fun c hc => ?_
  · rw [List.head?_append_of_ne_nil _ hfirst.ne_nil] at hc
    exact hfirst.visible c (List.mem_of_mem_head? hc)
  · rw [← List.append_assoc, List.getLast?_append_of_ne_nil _ hlast.ne_nil] at hc
    exact hlast.visible c (List.mem_of_mem_getLast? hc)

namespace MadeOf

variable {words words' : List (List Char)} {cs : List Char}

theorem blanks (h : MadeOf [] cs) : Blanks cs := by
  cases h with
  | nil hgap => exact hgap

/-- A text with a first word starts with it, after blanks. -/
theorem exists_first {word : List Char} (h : MadeOf (word :: words) cs) :
    ∃ gap rest, cs = gap ++ (word ++ rest) ∧ Blanks gap ∧ MadeOf words rest := by
  cases h with
  | cons hgap hrest => exact ⟨_, _, rfl, hgap, hrest⟩

/-- A text is cut at a word of one character. -/
theorem cut {c : Char} (h : MadeOf (words ++ [c] :: words') cs) :
    ∃ a b, cs = a ++ c :: b ∧ MadeOf words a ∧ MadeOf words' b := by
  induction words generalizing cs with
  | nil =>
    obtain ⟨gap, rest, rfl, hgap, hrest⟩ := h.exists_first
    exact ⟨gap, rest, rfl, .nil hgap, hrest⟩
  | cons word words ih =>
    obtain ⟨gap, rest, rfl, hgap, hrest⟩ := h.exists_first
    obtain ⟨a, b, rfl, ha, hb⟩ := ih hrest
    exact ⟨gap ++ (word ++ a), b, by simp, .cons hgap ha, hb⟩

/-- What stands in a text is a blank or stands in one of its words. -/
theorem mem_cases (h : MadeOf words cs) {d : Char} (hd : d ∈ cs) :
    isBlank d ∨ ∃ word ∈ words, d ∈ word := by
  induction h with
  | nil hgap => exact .inl (hgap d hd)
  | @cons gap word cs words hgap hcs ih =>
    rw [List.mem_append, List.mem_append] at hd
    rcases hd with hd | hd | hd
    · exact .inl (hgap d hd)
    · exact .inr ⟨word, by simp, hd⟩
    · exact (ih hd).imp_right fun h => h.imp fun w hw => ⟨List.mem_cons_of_mem word hw.1, hw.2⟩

/-- A text with plain words is plain. -/
theorem plain (h : MadeOf words cs) (hwords : ∀ word ∈ words, ∀ c ∈ word, isPlain c) :
    ∀ c ∈ cs, isPlain c := by
  intro c hc
  rcases h.mem_cases hc with hblank | ⟨word, hword, hmem⟩
  · exact isPlain_of_isBlank hblank
  · exact hwords word hword c hmem

/-- A character that is no blank stands in a text only in a word. -/
theorem not_mem (h : MadeOf words cs) {d : Char} (hd : isBlank d = false)
    (hwords : ∀ word ∈ words, d ∉ word) : d ∉ cs := by
  intro hmem
  rcases h.mem_cases hmem with hblank | ⟨word, hword, hmem⟩
  · rw [hd] at hblank
    cases hblank
  · exact hwords word hword hmem

/-- A text with words is not trimmed away. -/
theorem trim_ne_nil (h : MadeOf words cs) (hne : words ≠ []) (hwords : ∀ word ∈ words, IsWord word) :
    trim cs ≠ [] := by
  obtain ⟨word, words, rfl⟩ := List.exists_cons_of_ne_nil hne
  obtain ⟨gap, rest, rfl, -, -⟩ := h.exists_first
  have hword := hwords word (by simp)
  obtain ⟨c, word, rfl⟩ := List.exists_cons_of_ne_nil hword.ne_nil
  exact trim_ne_nil_of_mem (c := c) (by simp) (hword.visible c (by simp))

/-- **Collapsing the blanks of a text leaves its words.** -/
theorem collapseBlanks (h : MadeOf words cs) (hwords : ∀ word ∈ words, IsWord word) :
    MadeOf words (Text.collapseBlanks cs) := by
  induction h with
  | nil hgap => exact .nil hgap.collapseBlanks
  | @cons gap word cs words hgap hcs ih =>
    obtain ⟨hword, hwords⟩ := List.forall_mem_cons.1 hwords
    rw [collapseBlanks_append_visible hword.ne_nil hword.visible]
    exact .cons hgap.collapseBlanks (ih hwords)

/-- **Lists of words with separators between them are cut apart.** -/
theorem splitTop_eq {sep : Char} (hsep : isBlank sep = false) {lists : List (List (List Char))}
    (hne : lists ≠ []) (hlists : ∀ words ∈ lists, ∀ word ∈ words, (∀ c ∈ word, isPlain c) ∧ sep ∉ word)
    (h : MadeOf ([[sep]].intercalate lists) cs) :
    ∃ texts, splitTop sep cs = texts.map trim ∧ List.Forall₂ MadeOf lists texts := by
  have huncut {words : List (List Char)} {a : List Char}
      (hwords : ∀ word ∈ words, (∀ c ∈ word, isPlain c) ∧ sep ∉ word) (ha : MadeOf words a) :
      uncut sep 0 a :=
    uncut_of_not_mem (ha.not_mem hsep fun word hword => (hwords word hword).2) 0
  induction lists generalizing cs with
  | nil => exact absurd rfl hne
  | cons words lists ih =>
    obtain ⟨hwords, hlists⟩ := List.forall_mem_cons.1 hlists
    cases lists with
    | nil =>
      rw [List.intercalate_singleton] at h
      exact ⟨[cs], splitTop_of_uncut (huncut hwords h), .cons h .nil⟩
    | cons words' lists =>
      rw [List.intercalate_cons_cons, List.append_assoc, List.singleton_append] at h
      obtain ⟨a, b, rfl, ha, hb⟩ := h.cut
      obtain ⟨texts, hsplit, htexts⟩ := ih (by simp) hlists hb
      have hplain := ha.plain fun word hword => (hwords word hword).1
      refine ⟨a :: texts, ?_, .cons ha htexts⟩
      rw [splitTop, splitTopFrom_append (huncut hwords ha), foldl_depthAfter_plain hplain, splitTopFrom,
        if_pos (by simp), List.append_nil, List.reverse_reverse, ← splitTop, hsplit, List.map_cons]

end MadeOf

/-! ## Components -/

/-- A character of a word that may be taken for an index name: it is no blank, no sign and no comma, and it
opens and closes nothing. -/
def continuesComponent (c : Char) : Bool :=
  !isBlank c && isPlain c && c != ',' && c != '+' && c != '-'

/-- A component as it may be written: a word in the place of an index name, and the sign and the digits of
the shift unless there is none. The flag says that the sign is a minus. -/
structure Component where
  name : String
  amount : Option (Bool × List Char)
  nonempty : name.toList ≠ []
  word : name.toList.all continuesComponent
  digits : ∀ a ∈ amount, isNatural a.2

theorem isWord_identifier {name : String} (h : isIdentifier name) : IsWord name.toList where
  ne_nil := (solid_name h).ne_nil
  visible := fun c hc => isBlank_of_isWord (isWord_of_isIdentifier h c hc)

theorem isWord_digits {ds : List Char} (h : isNatural ds) : IsWord ds where
  ne_nil := by
    rintro rfl
    cases h
  visible := fun c hc =>
    isBlank_of_not_isJoint (isJoint_of_isDigit (List.all_eq_true.1 (isDigit_of_isNatural h) c hc))

/-- Digits for a number that is exact as a double are read as it. -/
theorem read_digits {ds : List Char} (h : isNatural ds) (hsmall : natOfDigits ds < 2 ^ 53) :
    Whole.read ds = ⟨false, natOfDigits ds⟩ := by
  have hminus : ∀ cs, ds = '-' :: cs → False := by
    rintro cs rfl
    cases h
  have hexact : onDoubleGrid (natOfDigits ds) = natOfDigits ds := if_pos hsmall.le
  rw [Whole.read, readInteger, hexact, Int.natAbs_natCast]
  · exact hminus
  · exact hminus

namespace Component

/-- The shift that a component assigns to its index. -/
def shift (p : Component) : Int :=
  match p.amount with
  | none => 0
  | some (negative, ds) => (⟨negative, natOfDigits ds⟩ : Whole).toInt

/-- The shift as it is read, which is a double. -/
def whole (p : Component) : Whole :=
  match p.amount with
  | none => 0
  | some (negative, ds) => if negative then (Whole.read ds).negate else Whole.read ds

/-- The sign of a shift. -/
def sign (negative : Bool) : Char :=
  if negative then '-' else '+'

/-- The words of a component. -/
def words (p : Component) : List (List Char) :=
  match p.amount with
  | none => [p.name.toList]
  | some (negative, ds) => [p.name.toList, [sign negative], ds]

variable {p : Component}

/-- Every shift of an index can be written. -/
theorem exists_component {name : String} (hname : isIdentifier name) (k : Int) :
    ∃ p : Component, p.name = name ∧ p.shift = k := by
  have hword : name.toList.all continuesComponent := by
    refine List.all_eq_true.2 fun c hc => ?_
    have hc := isWord_of_isIdentifier hname c hc
    have hne : c ≠ ',' ∧ c ≠ '+' ∧ c ≠ '-' := by
      refine ⟨?_, ?_, ?_⟩ <;> rintro rfl <;> cases hc
    simp [continuesComponent, isBlank_of_isWord hc, isPlain_of_isWord hc, hne]
  refine ⟨⟨name, some (decide (k < 0), Nat.toDigits 10 k.natAbs), (isWord_identifier hname).ne_nil, hword,
    by simp [isNatural_toDigits]⟩, rfl, ?_⟩
  change (⟨decide (k < 0), natOfDigits (Nat.toDigits 10 k.natAbs)⟩ : Whole).toInt = k
  rw [natOfDigits_toDigits]
  exact Whole.toInt_ofInt k

theorem isWord_name (p : Component) : IsWord p.name.toList where
  ne_nil := p.nonempty
  visible := fun c hc => by
    have hword := List.all_eq_true.1 p.word c hc
    simp only [continuesComponent, Bool.and_eq_true, Bool.not_eq_true'] at hword
    exact hword.1.1.1.1

theorem words_ne_nil (p : Component) : p.words ≠ [] := by
  rw [words]
  split <;> simp

/-- The words of a component hold no bracket and no comma. -/
theorem of_mem_words {word : List Char} (hword : word ∈ p.words) :
    IsWord word ∧ ∀ c ∈ word, isPlain c ∧ c ≠ ',' := by
  have hname : ∀ c ∈ p.name.toList, isPlain c ∧ c ≠ ',' := fun c hc => by
    have hc := List.all_eq_true.1 p.word c hc
    simp only [continuesComponent, Bool.and_eq_true, bne_iff_ne] at hc
    exact ⟨hc.1.1.1.2, hc.1.1.2⟩
  rw [words] at hword
  split at hword
  · obtain rfl := List.mem_singleton.1 hword
    exact ⟨p.isWord_name, hname⟩
  · next negative ds hamount =>
    have hdigits := p.digits _ hamount
    simp only [List.mem_cons, List.not_mem_nil, or_false] at hword
    rcases hword with rfl | rfl | rfl
    · exact ⟨p.isWord_name, hname⟩
    · cases negative <;> exact ⟨⟨by simp, by simp; rfl⟩, by simp; decide⟩
    · refine ⟨isWord_digits hdigits, fun c hc => ?_⟩
      have hdigit := List.all_eq_true.1 (isDigit_of_isNatural hdigits) c hc
      refine ⟨isPlain_of_not_isJoint (isJoint_of_isDigit hdigit), ?_⟩
      rintro rfl
      cases hdigit

/-- **A shift that is exact as a double is read as it is written.** -/
theorem toInt_whole (h : p.shift.natAbs < 2 ^ 53) : p.whole.toInt = p.shift := by
  rw [whole, shift] at *
  split
  · rfl
  · next negative ds hamount =>
    rw [hamount] at h
    have hsmall : natOfDigits ds < 2 ^ 53 := by
      cases negative <;> simpa [Whole.toInt] using h
    rw [read_digits (p.digits _ hamount) hsmall]
    cases negative <;> rfl

/-- The text of a component without the blanks around it. -/
theorem trim_eq {cs : List Char} (h : MadeOf p.words cs) :
    (p.amount = none ∧ trim cs = p.name.toList) ∨
      ∃ negative ds gap gap', p.amount = some (negative, ds) ∧ Blanks gap ∧ Blanks gap' ∧
        trim cs = p.name.toList ++ (gap ++ sign negative :: (gap' ++ ds)) := by
  rw [words] at h
  split at h
  · next hamount =>
    obtain ⟨gap, rest, rfl, hgap, hrest⟩ := h.exists_first
    rw [trim_blanks_append hgap, trim_append_blanks hrest.blanks, trim_of_visible p.isWord_name.visible]
    exact .inl ⟨hamount, rfl⟩
  · next negative ds hamount =>
    obtain ⟨a, b, rfl, ha, hb⟩ := @MadeOf.cut [p.name.toList] [ds] _ _ h
    obtain ⟨lead, gap, rfl, hlead, hgap⟩ := ha.exists_first
    obtain ⟨gap', trail, rfl, hgap', htrail⟩ := hb.exists_first
    refine .inr ⟨negative, ds, gap, gap', hamount, hgap.blanks, hgap', ?_⟩
    have htrim := trim_enclosed hlead htrail.blanks p.isWord_name (isWord_digits (p.digits _ hamount))
      (gap ++ sign negative :: gap')
    simpa using htrim

end Component

/-! ## Reading components -/

/-- A word that is no name starts no component. -/
theorem shift?_eq_none {word : List Char} (hword : word.all continuesComponent) (hne : word ≠ [])
    (hname : isName word = false) (rest : List Char) : shift? (word ++ rest) = none := by
  obtain ⟨c, cs, rfl⟩ := List.exists_cons_of_ne_nil hne
  by_cases hc : isNameStart c
  · have hall : cs.all isWord = false := by simpa [isName, hc] using hname
    -- Some character of the word ends the name that it starts with.
    obtain ⟨d, ds, hds⟩ : ∃ d ds, cs.dropWhile isWord = d :: ds := by
      refine List.exists_cons_of_ne_nil fun hnil => ?_
      rw [List.dropWhile_eq_nil_iff, ← List.all_eq_true, hall] at hnil
      cases hnil
    have hmem : d ∈ cs := (List.dropWhile_sublist isWord).subset (hds ▸ List.mem_cons_self)
    have hd := List.all_eq_true.1 hword d (List.mem_cons_of_mem c hmem)
    simp only [continuesComponent, Bool.and_eq_true, Bool.not_eq_true', bne_iff_ne] at hd
    have hstart : trimStart (d :: (ds ++ rest)) = d :: (ds ++ rest) :=
      trimStart_blanks_append .nil hd.1.1.1.1 _
    rw [shift?, List.cons_append, startingName?, if_pos hc, List.dropWhile_append, hds]
    simp only [List.isEmpty_cons, Bool.false_eq_true, if_false, List.cons_append, hstart]
    split <;> simp_all
  · rw [shift?, List.cons_append, startingName?, if_neg hc]

/-- A name with a sign and digits behind it is a component, whatever the blanks between them. -/
theorem shift?_signed {name gap gap' ds : List Char} (hname : isName name) (hgap : Blanks gap)
    (hgap' : Blanks gap') (hds : isNatural ds) (negative : Bool) :
    shift? (name ++ (gap ++ Component.sign negative :: (gap' ++ ds))) =
      some (String.ofList name, if negative then (Whole.read ds).negate else Whole.read ds) := by
  have hsign : isWord (Component.sign negative) = false ∧ isBlank (Component.sign negative) = false := by
    cases negative <;> decide
  have hhead : ∀ c ∈ (gap ++ Component.sign negative :: (gap' ++ ds)).head?, isWord c = false := by
    cases gap with
    | nil =>
      rintro c ⟨⟩
      exact hsign.1
    | cons d gap =>
      rintro c ⟨⟩
      exact isWord_of_isJoint (isJoint_of_isBlank (hgap d (by simp)))
  have hdigits : trimStart (gap' ++ ds) = ds := by
    have hword := isWord_digits hds
    obtain ⟨d, ds, rfl⟩ := List.exists_cons_of_ne_nil hword.ne_nil
    exact trimStart_blanks_append hgap' (hword.visible d (by simp)) ds
  rw [shift?, startingName?_append hname hhead]
  dsimp only
  rw [trimStart_blanks_append hgap hsign.2]
  cases negative <;> simp [Component.sign, hdigits, hds]

/-- **A component is read as the name and the shift that it writes** if its word is a name, and not at all if it
is none. -/
theorem shift?_trim {p : Component} {cs : List Char} (h : MadeOf p.words cs) :
    shift? (trim cs) = if isIdentifier p.name then some (p.name, p.whole) else none := by
  split
  · next hname =>
    rcases Component.trim_eq h with ⟨hamount, htrim⟩ | ⟨negative, ds, gap, gap', hamount, hgap, hgap', htrim⟩
    · have hstart := @startingName?_append p.name.toList [] hname (by simp)
      rw [List.append_nil] at hstart
      rw [htrim, shift?, hstart, Component.whole, hamount]
      simp [trimStart]
    · rw [htrim, shift?_signed hname hgap hgap' (p.digits _ hamount), String.ofList_toList, Component.whole,
        hamount]
  · next hname =>
    have hname : isName p.name.toList = false := by simpa [isIdentifier] using hname
    rcases Component.trim_eq h with ⟨-, htrim⟩ | ⟨_, _, _, _, -, -, -, htrim⟩
    · rw [htrim, ← List.append_nil p.name.toList]
      exact shift?_eq_none p.word p.nonempty hname []
    · rw [htrim]
      exact shift?_eq_none p.word p.nonempty hname _

/-! ## Slots -/

section
variable {ctx : Context} {ps : List Component} {texts : List (List Char)} {seen : List String}
  {shifts : List Whole}

/-- A component of a known index that was not named before sets the slot of the index. -/
theorem parseShifts_cons (hctx : ∀ n ∈ ctx.indices, isIdentifier n) {p : Component} {cs : List Char}
    (hcs : MadeOf p.words cs) (hknown : p.name ∈ ctx.indices) (hnew : p.name ∉ seen) :
    parseShifts ctx seen shifts (trim cs :: texts) =
      parseShifts ctx (p.name :: seen) (shifts.set (ctx.indices.idxOf p.name) p.whole) texts := by
  have hfits : (!ctx.indices.contains p.name || seen.contains p.name) = false := by simp [hknown, hnew]
  rw [parseShifts, shift?_trim hcs, if_pos (hctx _ hknown)]
  simp only [hfits, Bool.false_eq_true, if_false]

/-- A component of an unknown index, or of one that was named before, is refused. -/
theorem parseShifts_cons_error {p : Component} {cs : List Char} (hcs : MadeOf p.words cs)
    (h : p.name ∉ ctx.indices ∨ p.name ∈ seen) :
    parseShifts ctx seen shifts (trim cs :: texts) = .error (ctx.fault .invalidShift (trim cs)) := by
  have hbad : (!ctx.indices.contains p.name || seen.contains p.name) = true := by simpa using h
  rw [parseShifts, shift?_trim hcs]
  by_cases hname : isIdentifier p.name
  · simp only [if_pos hname, hbad, if_true]
  · rw [if_neg hname]

/-- **Components with distinct index names set the slots of their names**, and the other slots stay as they
are. -/
theorem parseShifts_eq_ok (hctx : ∀ n ∈ ctx.indices, isIdentifier n)
    (htexts : List.Forall₂ MadeOf (ps.map Component.words) texts) (hnodup : (ps.map (·.name)).Nodup)
    (hps : ∀ p ∈ ps, p.name ∈ ctx.indices ∧ p.name ∉ seen) (hlen : shifts.length = ctx.indices.length) :
    ∃ shifts', parseShifts ctx seen shifts (texts.map trim) = .ok shifts' ∧
      shifts'.length = shifts.length ∧
      (∀ p ∈ ps, shifts'[ctx.indices.idxOf p.name]? = some p.whole) ∧
      ∀ i, (∀ p ∈ ps, ctx.indices.idxOf p.name ≠ i) → shifts'[i]? = shifts[i]? := by
  induction ps generalizing texts seen shifts with
  | nil =>
    cases htexts
    exact ⟨shifts, rfl, rfl, by simp, fun _ _ => rfl⟩
  | cons p ps ih =>
    rw [List.map_cons] at htexts
    obtain ⟨cs, texts, hcs, hrest, rfl⟩ := List.forall₂_cons_left_iff.1 htexts
    obtain ⟨hp, hps⟩ := List.forall_mem_cons.1 hps
    rw [List.map_cons, List.nodup_cons] at hnodup
    have hother {q : Component} (hq : q ∈ ps) : q.name ≠ p.name := fun heq =>
      hnodup.1 (List.mem_map.2 ⟨q, hq, heq⟩)
    have hlen' : (shifts.set (ctx.indices.idxOf p.name) p.whole).length = ctx.indices.length := by
      rw [List.length_set, hlen]
    obtain ⟨shifts', hparse, hsame, hnamed, hfree⟩ := @ih texts (p.name :: seen) _ hrest hnodup.2
      (fun q hq => ⟨(hps q hq).1, by simp [hother hq, (hps q hq).2]⟩) hlen'
    refine ⟨shifts', ?_, by rw [hsame, List.length_set], List.forall_mem_cons.2 ⟨?_, hnamed⟩, fun i hi => ?_⟩
    · rw [List.map_cons, parseShifts_cons hctx hcs hp.1 hp.2, hparse]
    · -- The components that follow name other slots.
      rw [hfree _ fun q hq heq => hother hq ((List.idxOf_inj (hps q hq).1).1 heq),
        List.getElem?_set_self (by rw [hlen]; exact List.idxOf_lt_length_iff.2 hp.1)]
    · obtain ⟨hip, hi⟩ := List.forall_mem_cons.1 hi
      rw [hfree i hi, List.getElem?_set_ne hip]

/-- **A component that names no index, or one that was named before, is refused.** -/
theorem parseShifts_eq_error (hctx : ∀ n ∈ ctx.indices, isIdentifier n)
    (htexts : List.Forall₂ MadeOf (ps.map Component.words) texts)
    (h : ¬ (ps.map (·.name)).Nodup ∨ ∃ p ∈ ps, p.name ∉ ctx.indices ∨ p.name ∈ seen) :
    ∃ (before after : List Component) (p : Component) (cs : List Char), ps = before ++ p :: after ∧
      (p.name ∉ ctx.indices ∨ p.name ∈ seen ∨ p.name ∈ before.map (·.name)) ∧ MadeOf p.words cs ∧
      parseShifts ctx seen shifts (texts.map trim) = .error (ctx.fault .invalidShift (trim cs)) := by
  induction ps generalizing texts seen shifts with
  | nil => simp at h
  | cons p ps ih =>
    rw [List.map_cons] at htexts
    obtain ⟨cs, texts, hcs, hrest, rfl⟩ := List.forall₂_cons_left_iff.1 htexts
    rw [List.map_cons]
    by_cases hp : p.name ∉ ctx.indices ∨ p.name ∈ seen
    · exact ⟨[], ps, p, cs, rfl, hp.imp_right .inl, hcs, parseShifts_cons_error hcs hp⟩
    · obtain ⟨hknown, hnew⟩ := not_or.1 hp
      rw [not_not] at hknown
      -- What is wrong is wrong with a later component, now that this one was named too.
      have hlater : ¬ (ps.map (·.name)).Nodup ∨
          ∃ q ∈ ps, q.name ∉ ctx.indices ∨ q.name ∈ p.name :: seen := by
        rcases h with h | ⟨q, hq, hbad⟩
        · rw [List.map_cons, List.nodup_cons, not_and_or, not_not] at h
          rcases h with h | h
          · obtain ⟨q, hq, heq⟩ := List.mem_map.1 h
            exact .inr ⟨q, hq, .inr (by simp [heq])⟩
          · exact .inl h
        · rcases List.mem_cons.1 hq with rfl | hq
          · exact absurd hbad hp
          · exact .inr ⟨q, hq, hbad.imp_right (List.mem_cons_of_mem _)⟩
      obtain ⟨before, after, q, ds, rfl, hbad, hds, herror⟩ := ih hrest hlater
      refine ⟨p :: before, after, q, ds, rfl, ?_, hds, ?_⟩
      · rcases hbad with hbad | hbad | hbad
        · exact .inl hbad
        · exact .inr ((List.mem_cons.1 hbad).elim (fun heq => .inr (by simp [heq])) .inl)
        · exact .inr (.inr (by simp only [List.map_cons, List.mem_cons, hbad, or_true]))
      · rw [parseShifts_cons hctx hcs hknown hnew, herror]

end

/-! ## Calls -/

/-- The words of a body that consists of one call. -/
def callWords (target : String) (ps : List Component) : List (List Char) :=
  target.toList :: ['['] :: ([[',']].intercalate (ps.map Component.words) ++ [[']']])

/-- The words between the brackets of a call. -/
theorem of_mem_components {ps : List Component} {word : List Char}
    (h : word ∈ [[',']].intercalate (ps.map Component.words)) : IsWord word ∧ ∀ c ∈ word, isPlain c := by
  rcases mem_intercalate h with h | ⟨words, hwords, h⟩
  · obtain rfl := List.mem_singleton.1 h
    exact ⟨⟨by simp, by simp; rfl⟩, by simp; rfl⟩
  · obtain ⟨p, -, rfl⟩ := List.mem_map.1 hwords
    exact ⟨(Component.of_mem_words h).1, fun c hc => ((Component.of_mem_words h).2 c hc).1⟩

theorem isWord_square : IsWord ['['] ∧ IsWord [']'] :=
  ⟨⟨by simp, by simp; rfl⟩, ⟨by simp, by simp; rfl⟩⟩

/-- The parts of a body that consists of one call. -/
theorem MadeOf.exists_inside {target : String} {ps : List Component} {cs : List Char}
    (h : MadeOf (callWords target ps) cs) : ∃ gap gap' inside after,
      cs = gap ++ (target.toList ++ gap') ++ '[' :: (inside ++ ']' :: after) ∧ Blanks gap ∧ Blanks gap' ∧
        MadeOf ([[',']].intercalate (ps.map Component.words)) inside ∧ Blanks after := by
  obtain ⟨head, rest, rfl, hhead, hrest⟩ := @MadeOf.cut [target.toList] _ _ '[' h
  obtain ⟨gap, gap', rfl, hgap, hgap'⟩ := hhead.exists_first
  obtain ⟨inside, after, rfl, hinside, hafter⟩ := @MadeOf.cut _ [] _ ']' hrest
  exact ⟨gap, gap', inside, after, rfl, hgap, hgap'.blanks, hinside, hafter.blanks⟩

/-- A text that is cut nowhere at a sign is one term. -/
theorem splitTerms_of_unsplit {cs : List Char} (h : unsplit 0 [] cs) : splitTerms cs = [⟨trim cs, false⟩] := by
  have hskip := splitTermsFrom_append h [] false []
  rw [List.append_nil, List.append_nil] at hskip
  rw [splitTerms, hskip, splitTermsFrom, List.reverse_reverse]

section
variable {head inside after : List Char} (hhead : ∀ c ∈ head, isPlain c) (hinside : ∀ c ∈ inside, isPlain c)
  (hafter : Blanks after)
include hhead hinside hafter

theorem balanced_call : balanced (head ++ '[' :: (inside ++ ']' :: after)) := by
  have hskip := balancedFrom_append (s := []) (balanced_of_plain hinside) ['['] (']' :: after)
  rw [List.nil_append] at hskip
  rw [balanced_append (balanced_of_plain hhead), balanced, balancedFrom_opening rfl, hskip]
  exact balanced_of_plain hafter.plain

/-- A call is not cut at the signs between its brackets. -/
theorem unsplit_call (hplus : '+' ∉ head) (hminus : '-' ∉ head) :
    unsplit 0 [] (head ++ '[' :: (inside ++ ']' :: after)) := by
  have hsplit : head ++ '[' :: (inside ++ ']' :: after) = head ++ ('[' :: inside ++ [']'] ++ after) := by simp
  rw [hsplit, unsplit_append, unsplit_append, unsplit_of_not_mem hplus hminus, foldl_depthAfter_plain hhead,
    unsplit_brackets rfl (balanced_of_plain hinside), hafter.unsplit]
  rfl

end

section
variable {ctx : Context}

/-- A call without a coefficient is a term with the coefficient one. -/
theorem parseTerm_call {name gap inside : List Char} (hname : isName name) (hgap : Blanks gap)
    (hopen : '[' ∉ inside) (hclose : ']' ∉ inside) :
    parseTerm ctx ⟨name ++ (gap ++ '[' :: (inside ++ [']'])), false⟩ =
      (parseCall ctx name inside).map fun c => ⟨.number 1.0, .call c⟩ := by
  have hhead : '[' ∉ name ++ gap := by
    simp [(solid_name hname).square, hgap.not_mem (show isBlank '[' = false from rfl)]
  have hending : endingName? (name ++ gap) = some ([], name) := by
    rw [endingName?_append_blanks hgap]
    exact @endingName?_append [] name hname (by simp)
  have hsplit : name ++ (gap ++ '[' :: (inside ++ [']'])) = (name ++ gap) ++ '[' :: (inside ++ [']']) := by
    simp
  have hbracket : (inside ++ [']']).contains '[' = false := by simpa using hopen
  rw [hsplit, parseTerm]
  simp only [cutAt?_char hhead, hbracket, cutAt?_char hclose [], hending]
  cases parseCall ctx name inside <;> rfl

variable (ctx)

/-- **A body of one call is the call**, whatever the blanks in it. -/
theorem parseBody_call {target text : String} {ps : List Component} (htarget : isIdentifier target)
    (htext : MadeOf (callWords target ps) text.toList) : ∃ inside,
      MadeOf ([[',']].intercalate (ps.map Component.words)) inside ∧
        parseBody ctx text = (parseCall ctx target.toList inside).map fun c =>
          .sum [⟨.number 1.0, .call c⟩] := by
  have hname := isWord_identifier htarget
  have hwords : ∀ word ∈ callWords target ps, IsWord word := by
    rw [callWords]
    simp only [List.forall_mem_cons, List.forall_mem_append]
    exact ⟨hname, isWord_square.1, fun word hword => (of_mem_components hword).1, isWord_square.2, by simp⟩
  obtain ⟨gap, gap', inside, after, hcs, hgap, hgap', hinside, hafter⟩ :=
    (htext.collapseBlanks hwords).exists_inside
  have hplain := hinside.plain fun word hword => (of_mem_components hword).2
  -- Nothing before the bracket is a bracket or a sign.
  have hletters := isWord_of_isIdentifier htarget
  have hhead : ∀ c ∈ gap ++ (target.toList ++ gap'), isPlain c :=
    List.forall_mem_append.2 ⟨hgap.plain, List.forall_mem_append.2
      ⟨fun c hc => isPlain_of_isWord (hletters c hc), hgap'.plain⟩⟩
  have hsign {c : Char} (hblank : isBlank c = false) (hword : isWord c = false) :
      c ∉ gap ++ (target.toList ++ gap') := by
    simp only [List.mem_append, hgap.not_mem hblank, hgap'.not_mem hblank, false_or, or_false]
    intro hmem
    rw [hletters c hmem] at hword
    cases hword
  have htrim : trim (collapseBlanks text.toList) = target.toList ++ (gap' ++ '[' :: (inside ++ [']'])) := by
    have htrim := trim_enclosed hgap hafter hname isWord_square.2 (gap' ++ '[' :: inside)
    rw [hcs]
    simpa using htrim
  have hbal : balanced text.toList := by
    rw [← balanced_collapseBlanks, hcs]
    exact balanced_call hhead hplain hafter
  have hterms : splitTerms (collapseBlanks text.toList) = [⟨trim (collapseBlanks text.toList), false⟩] := by
    refine splitTerms_of_unsplit ?_
    rw [hcs]
    exact unsplit_call hhead hplain hafter (hsign rfl rfl) (hsign rfl rfl)
  have hparse := @parseBody_of_balanced ctx text.toList (by simp [htrim, hname.ne_nil]) hbal
  rw [String.ofList_toList, hterms, htrim, parseTerms, if_neg (by simp [hname.ne_nil]),
    parseTerm_call htarget hgap' (fun hmem => by cases hplain _ hmem) fun hmem => by cases hplain _ hmem]
    at hparse
  refine ⟨inside, hinside, hparse.trans ?_⟩
  cases parseCall ctx target.toList inside <;> rfl

/-- The components between the brackets of a call are found one by one. -/
theorem parseCall_components (target : String) {inside : List Char} {ps : List Component} (hne : ps ≠ [])
    (hinside : MadeOf ([[',']].intercalate (ps.map Component.words)) inside) : ∃ texts,
      List.Forall₂ MadeOf (ps.map Component.words) texts ∧
        parseCall ctx target.toList inside =
          (parseShifts ctx [] (ctx.indices.map fun _ => 0) (texts.map trim)).map fun shifts =>
            ⟨shifts, if target = ctx.name ∨ target = ctx.selfName then none else some target⟩ := by
  have htrim : trim inside ≠ [] := by
    refine hinside.trim_ne_nil ?_ fun word hword => (of_mem_components hword).1
    obtain ⟨p, ps, rfl⟩ := List.exists_cons_of_ne_nil hne
    cases ps <;> simp [List.intercalate_cons_cons, p.words_ne_nil]
  have hlists : ∀ words ∈ ps.map Component.words, ∀ word ∈ words, (∀ c ∈ word, isPlain c) ∧ ',' ∉ word := by
    intro words hwords word hword
    obtain ⟨p, -, rfl⟩ := List.mem_map.1 hwords
    have hcs := (Component.of_mem_words hword).2
    exact ⟨fun c hc => (hcs c hc).1, fun hmem => (hcs _ hmem).2 rfl⟩
  obtain ⟨texts, hsplit, htexts⟩ := hinside.splitTop_eq rfl (by simpa using hne) hlists
  refine ⟨texts, htexts, ?_⟩
  rw [parseCall, if_neg (by simpa using htrim), hsplit, String.ofList_toList]
  cases parseShifts ctx [] (ctx.indices.map fun _ => 0) (texts.map trim) with
  | error e => rfl
  | ok shifts => simp [Except.map, bind, Except.bind, pure, Except.pure]

variable {ctx}

/-- **Lists of shifts are read by name, in any order.** In a body of one call, each component sets the slot of
the index that it names and the other slots are zero; if a component names no index, or one that was named
before it, the body is refused with such a component as the fragment. -/
theorem parseBody_shiftList (hctx : ∀ n ∈ ctx.indices, isIdentifier n) (hindices : ctx.indices.Nodup)
    {target text : String} (htarget : isIdentifier target) {ps : List Component} (hne : ps ≠ [])
    (htext : MadeOf (callWords target ps) text.toList) :
    ((ps.map (·.name)).Nodup → (∀ p ∈ ps, p.name ∈ ctx.indices) → (∀ p ∈ ps, p.shift.natAbs < 2 ^ 53) →
      ∃ c : Call, parseBody ctx text = .ok (.sum [⟨.number 1.0, .call c⟩]) ∧
        c.target = (if target = ctx.name ∨ target = ctx.selfName then none else some target) ∧
        c.shifts.length = ctx.indices.length ∧
        ∀ i n, ctx.indices[i]? = some n → (∀ p ∈ ps, p.name = n → c.shiftAt i = p.shift) ∧
          (n ∉ ps.map (·.name) → c.shiftAt i = 0)) ∧
    (¬ (ps.map (·.name)).Nodup ∨ (∃ p ∈ ps, p.name ∉ ctx.indices) →
      ∃ (before after : List Component) (p : Component) (cs : List Char), ps = before ++ p :: after ∧
        (p.name ∉ ctx.indices ∨ p.name ∈ before.map (·.name)) ∧ MadeOf p.words cs ∧
        parseBody ctx text = .error (ctx.fault .invalidShift (trim cs))) := by
  obtain ⟨inside, hinside, hbody⟩ := parseBody_call ctx htarget htext
  obtain ⟨texts, htexts, hcall⟩ := parseCall_components ctx target hne hinside
  rw [hcall] at hbody
  constructor
  · intro hnodup hknown hsmall
    obtain ⟨shifts, hshifts, hlen, hnamed, hfree⟩ := parseShifts_eq_ok hctx htexts hnodup
      (fun p hp => ⟨hknown p hp, List.not_mem_nil⟩) (List.length_map _)
    rw [hshifts] at hbody
    refine ⟨_, hbody, rfl, hlen.trans (List.length_map _), fun i n hn => ?_⟩
    obtain ⟨hi, rfl⟩ := List.getElem?_eq_some_iff.1 hn
    have hslot : ctx.indices.idxOf ctx.indices[i] = i := hindices.idxOf_getElem i hi
    constructor
    · intro p hp hname
      have hread := hnamed p hp
      rw [hname, hslot] at hread
      rw [Call.shiftAt, Call.wholeShiftAt, hread, Option.getD_some, Component.toInt_whole (hsmall p hp)]
    · intro hother
      have hread := hfree i fun p hp hidx => by
        rw [← hslot, List.idxOf_inj (hknown p hp)] at hidx
        exact hother (List.mem_map.2 ⟨p, hp, hidx⟩)
      rw [Call.shiftAt, Call.wholeShiftAt, hread, List.getElem?_map, hn]
      rfl
  · intro hbad
    obtain ⟨before, after, p, cs, hps, hbad, hcs, herror⟩ := @parseShifts_eq_error ctx ps texts []
      (ctx.indices.map fun _ => 0) hctx htexts (hbad.imp_right fun h => h.imp fun p hp => ⟨hp.1, .inl hp.2⟩)
    rw [herror] at hbody
    exact ⟨before, after, p, cs, hps, by simpa using hbad, hcs, hbody⟩

end

/-- A recurrence over three indices. -/
def gridContext : Context where
  name := "Grid"
  indices := ["i", "j", "t"]
  runtimeVars := []
  selfName := "E"

/-- One step back in time. -/
def stepBack : Component :=
  ⟨"t", some (true, ['1']), by decide, rfl, by simp; rfl⟩

/-- Two steps to the side, with a leading zero. -/
def stepAside : Component :=
  ⟨"i", some (false, ['0', '2']), by decide, rfl, by simp; rfl⟩

/-- Two of three indices in another order and with blanks; the second text names one of them twice. -/
theorem parseBody_shiftList_mixed :
    (∃ c, parseBody gridContext "\tE [ t- 1 ,\n i +02]" = .ok (.sum [⟨.number 1.0, .call c⟩]) ∧
      c.target = none ∧ c.shiftAt 0 = 2 ∧ c.shiftAt 1 = 0 ∧ c.shiftAt 2 = -1) ∧
    ∃ fragment, parseBody gridContext "E[t-1,i+02,t-1]" =
      .error (gridContext.fault .invalidShift fragment) := by
  have hctx : ∀ n ∈ gridContext.indices, isIdentifier n := by decide
  have hindices : gridContext.indices.Nodup := by decide
  constructor
  · have htext : MadeOf (callWords "E" [stepBack, stepAside]) "\tE [ t- 1 ,\n i +02]".toList :=
      madeOf_of_isMadeOf (by decide +kernel)
    obtain ⟨c, hc, htarget, -, hshifts⟩ := (parseBody_shiftList hctx hindices rfl (by simp) htext).1
      (by decide) (by decide) (by decide)
    exact ⟨c, hc, htarget, (hshifts 0 "i" rfl).1 stepAside (by simp) rfl, (hshifts 1 "j" rfl).2 (by decide),
      (hshifts 2 "t" rfl).1 stepBack (by simp) rfl⟩
  · have htext : MadeOf (callWords "E" [stepBack, stepAside, stepBack]) "E[t-1,i+02,t-1]".toList :=
      madeOf_of_isMadeOf (by decide +kernel)
    obtain ⟨_, _, _, cs, -, -, -, herror⟩ := (parseBody_shiftList hctx hindices rfl (by simp) htext).2
      (.inl (by decide))
    exact ⟨trim cs, herror⟩

end RecurrenceCompiler.RuleText
