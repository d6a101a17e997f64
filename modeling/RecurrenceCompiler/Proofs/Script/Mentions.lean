import RecurrenceCompiler.Proofs.Arith.Names
import RecurrenceCompiler.Proofs.Decimal.Spelling
import RecurrenceCompiler.Proofs.Expr.Signature
import RecurrenceCompiler.Proofs.RuleText.Coefficient
import RecurrenceCompiler.Script.Expression

/-!
# Names that script text mentions

A text mentions a name where the name stands as a whole, so the text need not be read to know which
identifiers it can refer to. Where two texts meet at a character that belongs to no name, the names of
both are those of each (`Mentions.append`). Arithmetic text mentions the names that `namesIn` finds
and no others (`readsOnly_arith`), and a number that is written in digits mentions none
(`readsOnly_spells`).
-/

namespace RecurrenceCompiler.Script

open Text Decimal Arith

/-! ## Names in characters -/

/-- A run of characters that is a name. -/
def isNameRun : List Char → Bool
  | [] => false
  | c :: cs => startsName c && cs.all continuesName

/-- What continues a name in the definition language does so in scripts. -/
theorem continuesName_of_isWord {c : Char} (h : isWord c) : continuesName c := by
  rcases Bool.or_eq_true_iff.1 h with h | h <;> simp [continuesName, startsName, h]

/-- A name stands in a text: no character before or after it belongs to it, and no point stands before
it, as before the name of a member. -/
def Mentions (cs name : List Char) : Prop :=
  isNameRun name ∧ ∃ before after, cs = before ++ (name ++ after) ∧
    (∀ c ∈ before.getLast?, continuesName c = false ∧ c ≠ '.') ∧
    ∀ c ∈ after.head?, continuesName c = false

theorem continuesName_of_isNameRun {name : List Char} (h : isNameRun name) :
    ∀ c ∈ name, continuesName c := by
  cases name with
  | nil => cases h
  | cons c cs =>
    obtain ⟨hc, hcs⟩ := Bool.and_eq_true_iff.1 h
    exact List.forall_mem_cons.2 ⟨by simp [continuesName, hc], List.all_eq_true.1 hcs⟩

/-- **Names do not reach across a place where a name ends or none goes on.** -/
theorem Mentions.append {a b name : List Char} (h : Mentions (a ++ b) name)
    (hgap : (∀ c ∈ a.getLast?, continuesName c = false) ∨ ∀ c ∈ b.head?, continuesName c = false) :
    Mentions a name ∨ Mentions b name := by
  obtain ⟨hrun, before, after, heq, hbefore, hafter⟩ := h
  rcases List.append_eq_append_iff.1 heq with ⟨m, rfl, rfl⟩ | ⟨m, rfl, hm⟩
  · -- the name stands in the second text
    refine .inr ⟨hrun, m, after, rfl, fun c hc => hbefore c ?_, hafter⟩
    rw [List.getLast?_append, Option.mem_def.1 hc]
    rfl
  · rcases List.append_eq_append_iff.1 hm with ⟨k, rfl, rfl⟩ | ⟨k, hname, rfl⟩
    · -- the name stands in the first text
      refine .inl ⟨hrun, before, k, rfl, hbefore, fun c hc => hafter c ?_⟩
      rw [List.head?_append, Option.mem_def.1 hc]
      rfl
    · rcases List.eq_nil_or_concat m with rfl | ⟨m, x, rfl⟩
      · obtain rfl : name = k := hname
        exact .inr ⟨hrun, [], after, rfl, nofun, hafter⟩
      · cases k with
        | nil =>
          obtain rfl : name = m ++ [x] := by simpa using hname
          exact .inl ⟨hrun, before, [], by simp, hbefore, nofun⟩
        | cons y k =>
          -- characters of the name stand on both sides
          have hall := continuesName_of_isNameRun hrun
          rcases hgap with hgap | hgap
          · have hx := hgap x (by simp)
            rw [hall x (by simp [hname])] at hx
            cases hx
          · have hy := hgap y (by simp)
            rw [hall y (by simp [hname])] at hy
            cases hy

/-- Where no name starts there is none. -/
theorem not_mentions {cs name : List Char} (h : ∀ c ∈ cs, startsName c = false) : ¬Mentions cs name := by
  rintro ⟨hrun, before, after, rfl, -, -⟩
  cases name with
  | nil => cases hrun
  | cons c name =>
    have hc := h c (by simp)
    rw [(Bool.and_eq_true_iff.1 hrun).1] at hc
    cases hc

/-- A name mentions itself only. -/
theorem Mentions.eq_of_name {cs name : List Char} (hcs : ∀ c ∈ cs, continuesName c)
    (h : Mentions cs name) : name = cs := by
  obtain ⟨-, before, after, rfl, hbefore, hafter⟩ := h
  have hnil : before = [] := by
    rcases List.eq_nil_or_concat before with rfl | ⟨before, c, rfl⟩
    · rfl
    · have hc := (hbefore c (by simp)).1
      rw [hcs c (by simp)] at hc
      cases hc
  have hnil' : after = [] := by
    cases after with
    | nil => rfl
    | cons c after =>
      have hc := hafter c rfl
      rw [hcs c (by simp)] at hc
      cases hc
  rw [hnil, hnil', List.nil_append, List.append_nil]

/-! ## Arithmetic text -/

/-- A character that starts names in scripts only is a joint, and no token. -/
theorem startsName_cases {c : Char} (h : startsName c) : isNameStart c ∨
    isJoint c ∧ isBlank c = false ∧ Arith.Op.ofChar? c = none := by
  simp only [startsName, Bool.or_eq_true, beq_iff_eq, Bool.and_eq_true, decide_eq_true_eq,
    Bool.not_eq_true'] at h
  rcases h with (h | rfl) | ⟨hwide, hblank⟩
  · exact .inl h
  · exact .inr ⟨rfl, rfl, rfl⟩
  · -- a character outside of ASCII is none of the characters of arithmetic
    have hne (d : Char) (hd : d.toNat ≤ 127) : c ≠ d := by
      rintro rfl
      omega
    refine .inr ⟨?_, hblank, ?_⟩
    · simp only [isJoint, isWord, isNameStart, isDigit, Bool.and_eq_true, Bool.not_eq_true',
        Bool.or_eq_false_iff, Bool.and_eq_false_iff, decide_eq_false_iff_not, bne_iff_ne, ne_eq,
        Char.le_def, Char.ext_iff, UInt32.le_iff_toNat_le, ← UInt32.toNat_inj, Char.toNat_val,
        beq_eq_false_iff_ne, Char.reduceVal, UInt32.reduceToNat]
      omega
    · unfold Arith.Op.ofChar?
      split <;> first | rfl | exact absurd rfl (hne _ (by decide))

/-- In arithmetic text the names of scripts are those of the definition language. -/
theorem isNameStart_of_startsName {cs : List Char} {ts : List Arith.Token}
    (h : Arith.tokens? cs = some ts) {c : Char} (hc : c ∈ cs) (hstart : startsName c) :
    isNameStart c := by
  rcases startsName_cases hstart with hname | ⟨hjoint, hblank, hop⟩
  · exact hname
  · exact absurd hc (RuleText.not_mem_of_tokens? h hjoint hblank hop)

/-- **Every name that arithmetic text mentions is found by `namesIn`.** -/
theorem mem_pieceNames_of_mentions {cs name : List Char} {ts : List Arith.Token} (h : Arith.tokens? cs = some ts)
    (hname : Mentions cs name) : String.ofList name ∈ Arith.pieceNames cs := by
  obtain ⟨hrun, before, after, rfl, hbefore, hafter⟩ := hname
  obtain _ | ⟨c, ws⟩ := name
  · cases hrun
  obtain ⟨hc, hws⟩ := Bool.and_eq_true_iff.1 hrun
  have hc : isNameStart c := isNameStart_of_startsName h (by simp) hc
  have hws : ws.all isWord := by
    rw [List.all_eq_true] at hws ⊢
    intro d hd
    rcases Bool.or_eq_true_iff.1 (hws d hd) with hstart | hdigit
    · simp [isWord, isNameStart_of_startsName h (by simp [hd]) hstart]
    · simp [isWord, hdigit]
  have hword {d : Char} (hd : continuesName d = false) : isWord d = false := by
    cases hw : isWord d with
    | false => rfl
    | true => simp [continuesName_of_isWord hw] at hd
  have hfront : String.ofList (c :: ws) ∈ Arith.pieceNames (c :: ws ++ after) := by
    rw [Arith.pieceNames, Arith.pieces_name hc hws fun d hd => hword (hafter d hd)]
    simp [Arith.Piece.name?]
  rcases List.eq_nil_or_concat before with rfl | ⟨before, d, rfl⟩
  · exact hfront
  · obtain ⟨hd, hdot⟩ := hbefore d (by simp)
    rw [List.concat_eq_append, List.append_assoc, List.singleton_append,
      Arith.pieceNames_append (hword hd) hdot]
    exact List.mem_append_right _ hfront

/-! ## What a text reads -/

/-- The identifiers that a text reads are among some names. The words that scripts reserve are no
identifiers. -/
def ReadsOnly (names : List String) (text : String) : Prop :=
  ∀ name, Mentions text.toList name → String.ofList name ∈ names ∨ String.ofList name ∈ reservedWords

/-- A text between others that belongs to no name: blanks, brackets, commas and operators. -/
def isGlue (text : String) : Bool :=
  !text.toList.isEmpty && text.toList.all fun c => !continuesName c

/-- A text that reads some names and ends with no name, so that any text may follow. -/
structure Closes (names : List String) (text : String) : Prop where
  reads : ReadsOnly names text
  last : ∀ c ∈ text.toList.getLast?, continuesName c = false

variable {names names' : List String} {a b g text : String}

theorem ReadsOnly.mono (h : ReadsOnly names text) (hsub : names ⊆ names') : ReadsOnly names' text :=
  fun name hname => (h name hname).imp_left fun hmem => hsub hmem

theorem readsOnly_append (ha : ReadsOnly names a) (hb : ReadsOnly names b)
    (hgap : (∀ c ∈ a.toList.getLast?, continuesName c = false) ∨
      ∀ c ∈ b.toList.head?, continuesName c = false) : ReadsOnly names (a ++ b) := by
  intro name hname
  rw [String.toList_append] at hname
  rcases hname.append hgap with h | h
  · exact ha name h
  · exact hb name h

theorem isGlue_iff : isGlue g ↔ g.toList ≠ [] ∧ ∀ c ∈ g.toList, continuesName c = false := by
  simp [isGlue]

/-- **Glue reads nothing.** -/
theorem closes_glue (h : isGlue g) : Closes names g := by
  obtain ⟨-, hg⟩ := isGlue_iff.1 h
  refine ⟨fun name hname => absurd hname (not_mentions fun c hc => ?_), fun c hc =>
    hg c (List.mem_of_getLast? hc)⟩
  exact (Bool.or_eq_false_iff.1 (hg c hc)).1

/-- A text with glue after it. -/
theorem ReadsOnly.glue (h : ReadsOnly names a) (hg : isGlue g) : Closes names (a ++ g) := by
  obtain ⟨hne, hchars⟩ := isGlue_iff.1 hg
  refine ⟨readsOnly_append h (closes_glue hg).reads (.inr fun c hc => hchars c (List.mem_of_head? hc)),
    fun c hc => hchars c ?_⟩
  rw [String.toList_append, List.getLast?_append_of_ne_nil _ hne] at hc
  exact List.mem_of_getLast? hc

/-- What ends with no name, with a text after it. -/
theorem Closes.append (h : Closes names a) (hb : ReadsOnly names b) : ReadsOnly names (a ++ b) :=
  readsOnly_append h.reads hb (.inl h.last)

/-- What ends with no name, with glue after it. -/
theorem Closes.glue (h : Closes names a) (hg : isGlue g) : Closes names (a ++ g) :=
  h.reads.glue hg

/-- A text in parentheses. -/
theorem ReadsOnly.paren (h : ReadsOnly names text) : Closes names ("(" ++ text ++ ")") :=
  ((closes_glue rfl).append h).glue rfl

/-- Texts with glue between them. -/
theorem readsOnly_intercalate (hg : isGlue g) {texts : List String}
    (h : ∀ t ∈ texts, ReadsOnly names t) : ReadsOnly names (g.intercalate texts) := by
  induction texts with
  | nil =>
    rw [String.intercalate_nil]
    exact fun name hname => absurd hname (not_mentions (by simp))
  | cons t texts ih =>
    rw [List.forall_mem_cons] at h
    cases texts with
    | nil =>
      rw [String.intercalate_singleton]
      exact h.1
    | cons t' texts =>
      rw [String.intercalate_cons_cons]
      exact (h.1.glue hg).append (ih h.2)

/-- A function with its arguments. -/
theorem ReadsOnly.call {args : List String} (h : ReadsOnly names text)
    (hargs : ∀ t ∈ args, ReadsOnly names t) :
    ReadsOnly names (text ++ "(" ++ ", ".intercalate args ++ ")") :=
  (((h.glue rfl).append (readsOnly_intercalate rfl hargs)).glue rfl).reads

/-- A name reads itself. -/
theorem readsOnly_name (htext : ∀ c ∈ text.toList, continuesName c) (h : text ∈ names) :
    ReadsOnly names text := by
  intro name hname
  rw [hname.eq_of_name htext, String.ofList_toList]
  exact .inl h

theorem continuesName_of_isIdentifier {n : String} (h : isIdentifier n) :
    ∀ c ∈ n.toList, continuesName c :=
  fun c hc => continuesName_of_isWord (isWord_of_isIdentifier h c hc)

/-- An identifier reads itself. -/
theorem readsOnly_identifier {n : String} (h : isIdentifier n) (hn : n ∈ names) : ReadsOnly names n :=
  readsOnly_name (continuesName_of_isIdentifier h) hn

/-- A word that scripts reserve reads nothing. -/
theorem readsOnly_reserved (htext : ∀ c ∈ text.toList, continuesName c) (h : text ∈ reservedWords) :
    ReadsOnly names text := by
  intro name hname
  rw [hname.eq_of_name htext, String.ofList_toList]
  exact .inr h

/-- Arithmetic text reads the names that `namesIn` finds. -/
theorem readsOnly_arith (h : (Arith.tokens? text.toList).isSome)
    (hnames : ∀ n ∈ Arith.namesIn text, n ∈ names) : ReadsOnly names text := by
  obtain ⟨ts, hts⟩ := Option.isSome_iff_exists.1 h
  refine fun name hname => .inl (hnames _ ?_)
  rw [Arith.namesIn, Arith.mem_distinct]
  exact mem_pieceNames_of_mentions hts hname

/-- A literal mentions no name. -/
theorem not_mentions_literal {l : Literal} (hl : l.WellFormed) {name : List Char} :
    ¬Mentions l.chars name := by
  intro hname
  have htokens : Arith.tokens? l.chars = some [.num l.value] := by
    have hscan := Arith.tokens?_lexeme (.num hl) (Arith.Token.first?_chars hl l.stops_nil)
    rwa [List.append_nil] at hscan
  have hmem := mem_pieceNames_of_mentions htokens hname
  rw [Arith.pieceNames_literal hl] at hmem
  cases hmem

/-- **A finite number reads nothing.** -/
theorem readsOnly_spells {x : Float} (h : Spells text.toList x) (hx : IsFinite x) :
    ReadsOnly names text := by
  intro name hname
  have hagrees := agrees x
  rw [IsFinite] at hx
  rw [Spells] at h
  cases hr : Reading.ofFloat x with
  | nan | infinite =>
    rw [hr] at hagrees
    cases hu : x.toModel.unpack <;> rw [hu] at hagrees hx <;> first | exact hagrees.elim | exact hx.elim
  | zero =>
    rw [hr] at h
    rw [h] at hname
    exact absurd hname (not_mentions (List.forall_mem_singleton.2 rfl))
  | finite negative b =>
    rw [hr] at h
    obtain ⟨l, hl, -, htext⟩ := h
    rw [htext] at hname
    cases negative with
    | false => exact absurd hname (not_mentions_literal hl)
    | true =>
      rcases Mentions.append (a := ['-']) hname (.inl (by rintro c ⟨⟩; rfl)) with hminus | hliteral
      · exact absurd hminus (not_mentions (List.forall_mem_singleton.2 rfl))
      · exact absurd hliteral (not_mentions_literal hl)

theorem readsOnly_numberText {x : Float} (hx : IsFinite x) : ReadsOnly names (numberText x) := by
  have hspells : Spells (numberText x).toList x := by
    rw [numberText, String.toList_ofList]
    exact spells_numberChars x
  exact readsOnly_spells hspells hx

theorem readsOnly_intText {i : Int} (hi : IsFinite (ofInt i)) : ReadsOnly names (intText i) :=
  readsOnly_spells (spells_intText i) hi

end RecurrenceCompiler.Script
