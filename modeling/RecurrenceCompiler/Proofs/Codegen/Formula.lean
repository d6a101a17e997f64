import RecurrenceCompiler.Proofs.Codegen.Rendering
import RecurrenceCompiler.Proofs.RuleText.Products
import RecurrenceCompiler.Proofs.Script.Mentions

/-!
# Formulas

Generated arithmetic is read without knowing the language that it is written in. A formula is cut at the
blanks outside all brackets into operands and operators; multiplication and division bind more strongly
than addition and subtraction, and operators of one strength are applied from left to right
(`Formula.read`). An operand is a primary or postfix expression. One that stands in parentheses has the
value of the formula inside them; if that is none, and if the operand does not stand in parentheses, its
text is given a value as a whole.

A text that is put together from formulas is read as what its parts are read as
(`Formula.reading`), and what is read depends on the names that the text mentions only
(`Formula.readChars_congr`).
-/

namespace RecurrenceCompiler.Formula

open Text Decimal Script RuleText

/-! ## Words -/

/-- The brackets that are open: parentheses and square brackets, and around them the angle brackets of
template arguments. -/
structure Open where
  round : Nat := 0
  angle : Nat := 0
deriving DecidableEq

/-- The open brackets after a character. Between parentheses the angles are comparisons. -/
def Open.after (o : Open) (c : Char) : Open :=
  if isOpening c then { o with round := o.round + 1 }
  else if isClosing c then { o with round := o.round - 1 }
  else if o.round ≠ 0 then o
  else if c == '<' then { o with angle := o.angle + 1 }
  else if c == '>' then { o with angle := o.angle - 1 }
  else o

/-- The parts between the blanks outside all brackets. -/
def wordsFrom : Open → List Char → List (List Char)
  | _, [] => [[]]
  | o, c :: cs =>
    if isBlank c && o == {} then [] :: wordsFrom {} cs
    else (wordsFrom (o.after c) cs).modifyHead (c :: ·)

/-- The words of a formula. -/
def words (cs : List Char) : List (List Char) :=
  wordsFrom {} cs

/-- Whether no blank stands outside all brackets and all brackets are closed at the end. -/
def unbrokenFrom : Open → List Char → Bool
  | o, [] => o == {}
  | o, c :: cs => !(isBlank c && o == {}) && unbrokenFrom (o.after c) cs

/-- What is not cut stays with the first word. -/
theorem wordsFrom_append {o : Open} {w : List Char} (h : unbrokenFrom o w) (rest : List Char) :
    wordsFrom o (w ++ rest) = (words rest).modifyHead (w ++ ·) := by
  induction w generalizing o with
  | nil =>
    obtain rfl : o = {} := by simpa [unbrokenFrom] using h
    exact (congrFun List.modifyHead_id (words rest)).symm
  | cons c w ih =>
    rw [unbrokenFrom, Bool.and_eq_true, Bool.not_eq_true'] at h
    rw [List.cons_append, wordsFrom, h.1, if_neg Bool.false_ne_true, ih h.2, List.modifyHead_modifyHead]
    rfl

theorem words_blank (rest : List Char) : words (' ' :: rest) = [] :: words rest := rfl

/-- **Unbroken words with blanks between them are found again.** -/
theorem words_intercalate {ws : List (List Char)} (hne : ws ≠ []) (h : ∀ w ∈ ws, unbrokenFrom {} w) :
    words ([' '].intercalate ws) = ws := by
  induction ws with
  | nil => exact absurd rfl hne
  | cons w ws ih =>
    rw [List.forall_mem_cons] at h
    cases ws with
    | nil =>
      have hword := wordsFrom_append h.1 []
      rw [List.append_nil] at hword
      rw [List.intercalate_singleton, words, hword]
      simp [words, wordsFrom]
    | cons w' ws =>
      rw [List.intercalate_cons_cons, List.append_assoc, words, wordsFrom_append h.1,
        List.singleton_append, words_blank, ih (by simp) h.2]
      simp

/-- Words stand in a text between blanks. -/
inductive Cuts : List Char → List (List Char) → Prop
  | last (w : List Char) : Cuts w [w]
  | blank {c : Char} {w rest : List Char} {ws : List (List Char)} : isBlank c → Cuts rest ws →
      Cuts (w ++ c :: rest) (w :: ws)

theorem Cuts.modifyHead {cs : List Char} {ws : List (List Char)} (h : Cuts cs ws) (c : Char) :
    Cuts (c :: cs) (ws.modifyHead (c :: ·)) := by
  cases h with
  | last => exact .last _
  | @blank b w rest ws hb hrest => exact @Cuts.blank b (c :: w) rest ws hb hrest

theorem cuts_wordsFrom (o : Open) (cs : List Char) : Cuts cs (wordsFrom o cs) := by
  induction cs generalizing o with
  | nil => exact .last []
  | cons c cs ih =>
    rw [wordsFrom]
    split
    · next hc => exact @Cuts.blank c [] cs _ (Bool.and_eq_true_iff.1 hc).1 (ih {})
    · exact (ih _).modifyHead c

theorem Cuts.length_le {cs : List Char} {ws : List (List Char)} (h : Cuts cs ws) :
    ∀ w ∈ ws, w.length ≤ cs.length := by
  induction h with
  | last w => simp
  | blank _ _ ih =>
    refine List.forall_mem_cons.2 ⟨by simp, fun w hw => ?_⟩
    have hle := ih w hw
    simp only [List.length_append, List.length_cons]
    omega

/-- A text mentions what stands in it between characters that belong to no name. -/
theorem mentions_between {before w after name : List Char} (h : Mentions w name)
    (hbefore : ∀ c ∈ before.getLast?, continuesName c = false ∧ c ≠ '.')
    (hafter : ∀ c ∈ after.head?, continuesName c = false) : Mentions (before ++ w ++ after) name := by
  obtain ⟨hrun, front, rest, rfl, hfront, hrest⟩ := h
  refine ⟨hrun, before ++ front, rest ++ after, by simp, fun c hc => ?_, fun c hc => ?_⟩
  · rcases List.eq_nil_or_concat front with rfl | ⟨front, d, rfl⟩
    · exact hbefore c (by simpa using hc)
    · exact hfront c (by simpa using hc)
  · cases rest with
    | nil => exact hafter c (by simpa using hc)
    | cons d rest => exact hrest c (by simpa using hc)

/-- A text mentions what its words mention. -/
theorem Cuts.mentions {cs : List Char} {ws : List (List Char)} (h : Cuts cs ws) {name : List Char} :
    ∀ w ∈ ws, Mentions w name → Mentions cs name := by
  have hblank {c : Char} (hc : isBlank c) : continuesName c = false ∧ c ≠ '.' :=
    ⟨continuesName_of_isBlank hc, by rintro rfl; cases hc⟩
  induction h with
  | last w => exact List.forall_mem_singleton.2 id
  | @blank c w rest ws hc _ ih =>
    refine List.forall_mem_cons.2 ⟨fun hw => ?_, fun v hv hname => ?_⟩
    · have hwhole : Mentions ([] ++ w ++ c :: rest) name :=
        mentions_between hw nofun (by rintro d ⟨⟩; exact (hblank hc).1)
      exact hwhole
    · have hwhole : Mentions ((w ++ [c]) ++ rest ++ []) name := mentions_between (ih v hv hname)
        (by rw [List.getLast?_concat]; rintro d ⟨⟩; exact hblank hc) nofun
      simpa using hwhole

/-! ## Operands -/

/-- Whether what stands outside all brackets are names, points, colons and brackets, and all brackets
are closed at the end. -/
def isPostfixFrom : Open → List Char → Bool
  | o, [] => o == {}
  | o, c :: cs =>
    (o != {} || continuesName c || "([<.:".toList.contains c) && isPostfixFrom (o.after c) cs

/-- Whether a text is a name, or something in parentheses, with members, arguments and subscripts after
it. -/
def isPostfix (cs : List Char) : Bool :=
  cs.head?.any (fun c => startsName c || c == '(') && balanced cs && isPostfixFrom {} cs

/-- Whether a text is a primary or postfix expression. -/
def isOperand (cs : List Char) : Bool :=
  isPostfix cs || (Literal.ofChars? cs).isSome

theorem isPostfix_iff {cs : List Char} : isPostfix cs ↔
    (∃ c ∈ cs.head?, startsName c = true ∨ c = '(') ∧ balanced cs ∧ isPostfixFrom {} cs := by
  cases cs <;> simp [isPostfix, and_assoc]

theorem unbrokenFrom_of_isPostfixFrom {o : Open} {cs : List Char} (h : isPostfixFrom o cs) :
    unbrokenFrom o cs := by
  induction cs generalizing o with
  | nil => exact h
  | cons c cs ih =>
    rw [isPostfixFrom, Bool.and_eq_true] at h
    rw [unbrokenFrom, Bool.and_eq_true, Bool.not_eq_true', Bool.and_eq_false_iff]
    refine ⟨?_, ih h.2⟩
    by_cases ho : o = {}
    · -- what may stand outside all brackets is no blank
      have hc : continuesName c ∨ c ∈ "([<.:".toList := by simpa [ho] using h.1
      refine .inl ?_
      cases hblank : isBlank c with
      | false => rfl
      | true =>
        rcases hc with hc | hc
        · rw [continuesName_of_isBlank hblank] at hc
          cases hc
        · have hall : ("([<.:".toList.all fun c => !isBlank c) = true := by decide
          simpa [hblank] using List.all_eq_true.1 hall c hc
    · exact .inr (by simpa using ho)

/-- A character that is no bracket leaves open what is. -/
theorem Open.after_of_plain {o : Open} {c : Char} (hc : isPlain c) (hangle : c ≠ '<' ∧ c ≠ '>') :
    o.after c = o := by
  simp only [isPlain, Bool.and_eq_true, Bool.not_eq_true'] at hc
  simp [Open.after, hc, hangle]

/-- What is no joint is neither a bracket nor a blank. -/
theorem unbrokenFrom_of_not_isJoint {cs : List Char} (h : ∀ c ∈ cs, isJoint c = false) :
    unbrokenFrom {} cs := by
  induction cs with
  | nil => rfl
  | cons c cs ih =>
    rw [List.forall_mem_cons] at h
    have hangle : c ≠ '<' ∧ c ≠ '>' := by
      constructor <;> rintro rfl <;> cases h.1
    rw [unbrokenFrom, Open.after_of_plain (isPlain_of_not_isJoint h.1) hangle, ih h.2,
      isBlank_of_not_isJoint h.1]
    rfl

/-- No character of a literal is a joint. -/
theorem not_isJoint_of_ofChars? {cs : List Char} (h : (Literal.ofChars? cs).isSome) :
    ∀ c ∈ cs, isJoint c = false := by
  unfold Literal.ofChars? at h
  split at h
  · next l hl =>
    have hchars := chars_of_scan? hl
    rw [List.append_nil] at hchars
    rw [hchars]
    exact (wellFormed_of_scan? hl).not_isJoint
  · cases h

/-- An operand is one word. -/
theorem unbrokenFrom_of_isOperand {cs : List Char} (h : isOperand cs) : unbrokenFrom {} cs := by
  rcases Bool.or_eq_true_iff.1 h with h | h
  · exact unbrokenFrom_of_isPostfixFrom (isPostfix_iff.1 h).2.2
  · exact unbrokenFrom_of_not_isJoint (not_isJoint_of_ofChars? h)

/-- The brackets of an operand close in order. -/
theorem balanced_of_isOperand {cs : List Char} (h : isOperand cs) : balanced cs := by
  rcases Bool.or_eq_true_iff.1 h with h | h
  · exact (isPostfix_iff.1 h).2.1
  · exact balanced_of_plain fun c hc => isPlain_of_not_isJoint (not_isJoint_of_ofChars? h c hc)

/-- Between parentheses anything may stand that closes what it opens. -/
theorem isPostfixFrom_of_balancedFrom {s inner : List Char} (h : balancedFrom s inner = true)
    (rest : List Char) (angle : Nat) :
    isPostfixFrom ⟨s.length + 1, angle⟩ (inner ++ rest) = isPostfixFrom ⟨1, angle⟩ rest := by
  induction inner generalizing s with
  | nil =>
    obtain rfl : s = [] := by simpa [balancedFrom] using h
    rfl
  | cons c inner ih =>
    have hopen : (⟨s.length + 1, angle⟩ : Open) ≠ {} := fun heq => by cases heq
    rw [List.cons_append, isPostfixFrom, bne_iff_ne.2 hopen, Bool.true_or, Bool.true_or, Bool.true_and]
    rcases isOpening_or_isClosing_or_isPlain c with hc | hc | hc
    · rw [balancedFrom_opening hc] at h
      rw [← ih h]
      simp [Open.after, hc]
    · obtain ⟨o, s, rfl, -, h⟩ := (balancedFrom_closing hc).1 h
      rw [← ih h]
      simp [Open.after, hc, not_isOpening_of_isClosing hc]
    · rw [balancedFrom_plain hc] at h
      rw [← ih h]
      simp only [isPlain, Bool.and_eq_true, Bool.not_eq_true'] at hc
      simp [Open.after, hc]

/-- A balanced text in parentheses closes what it opens. -/
theorem isPostfixFrom_paren {inner : List Char} (h : balanced inner) :
    isPostfixFrom {} ('(' :: inner ++ [')']) := by
  have hinner := isPostfixFrom_of_balancedFrom (s := []) h [')'] 0
  rw [List.cons_append, isPostfixFrom]
  exact hinner.trans rfl

/-- **A balanced text in parentheses is an operand.** -/
theorem isOperand_paren {inner : List Char} (h : balanced inner) :
    isOperand ('(' :: inner ++ [')']) := by
  refine Bool.or_eq_true_iff.2 (.inl (isPostfix_iff.2 ⟨⟨'(', rfl, .inr rfl⟩, balanced_paren h, ?_⟩))
  exact isPostfixFrom_paren h

theorem isPostfixFrom_append {o : Open} {a : List Char} (h : isPostfixFrom o a) (b : List Char) :
    isPostfixFrom o (a ++ b) = isPostfixFrom {} b := by
  induction a generalizing o with
  | nil =>
    obtain rfl : o = {} := by simpa [isPostfixFrom] using h
    rfl
  | cons c a ih =>
    rw [isPostfixFrom, Bool.and_eq_true] at h
    rw [List.cons_append, isPostfixFrom, h.1, Bool.true_and, ih h.2]

/-- **Arguments make an operand of a postfix expression.** -/
theorem isOperand_call {callee inner : List Char} (hcallee : isPostfix callee) (h : balanced inner) :
    isOperand (callee ++ ('(' :: inner ++ [')'])) := by
  obtain ⟨⟨c, hc, hstart⟩, hbal, hpostfix⟩ := isPostfix_iff.1 hcallee
  refine Bool.or_eq_true_iff.2 (.inl (isPostfix_iff.2 ⟨⟨c, ?_, hstart⟩, ?_, ?_⟩))
  · rw [List.head?_append, Option.mem_def.1 hc]
    rfl
  · rw [balanced_append hbal]
    exact balanced_paren h
  · rw [isPostfixFrom_append hpostfix]
    exact isPostfixFrom_paren h

/-- What belongs to a name is no bracket. -/
theorem isPlain_of_continuesName {c : Char} (h : continuesName c) : isPlain c ∧ c ≠ '<' ∧ c ≠ '>' := by
  have hplain : isPlain c := by
    simp only [isPlain, isOpening, isClosing, Bool.and_eq_true, Bool.not_eq_true', Bool.or_eq_false_iff,
      beq_eq_false_iff_ne]
    refine ⟨⟨?_, ?_⟩, ?_, ?_⟩ <;> rintro rfl <;> cases h
  refine ⟨hplain, ?_, ?_⟩ <;> rintro rfl <;> cases h

/-- **A name is an operand.** -/
theorem isOperand_name {name : List Char} (h : isNameRun name) : isOperand name := by
  have hname := continuesName_of_isNameRun h
  have hpostfix {cs : List Char} (hcs : ∀ c ∈ cs, continuesName c) : isPostfixFrom {} cs := by
    induction cs with
    | nil => rfl
    | cons c cs ih =>
      rw [List.forall_mem_cons] at hcs
      obtain ⟨hplain, hangle⟩ := isPlain_of_continuesName hcs.1
      rw [isPostfixFrom, hcs.1, Open.after_of_plain hplain hangle, ih hcs.2]
      rfl
  refine Bool.or_eq_true_iff.2 (.inl (isPostfix_iff.2 ⟨?_, ?_, hpostfix hname⟩))
  · cases name with
    | nil => cases h
    | cons c cs => exact ⟨c, rfl, .inl (Bool.and_eq_true_iff.1 h).1⟩
  · exact balanced_of_plain fun c hc => (isPlain_of_continuesName (hname c hc)).1

/-! ## Reading -/

/-- The operator that a word is. -/
def sign? : List Char → Option BinOp
  | ['+'] => some .add
  | ['-'] => some .sub
  | ['*'] => some .mul
  | ['/'] => some .div
  | _ => none

theorem sign?_text (o : BinOp) : sign? o.text.toList = some o := by
  cases o <;> rfl

section
variable {V : Type} (op : BinOp → V → V → V)

/-- The sum so far with the product that was just read. -/
def addUp : Option (V × BinOp) → V → V
  | none, x => x
  | some (sum, o), x => op o sum x

/-- The value of a formula from an operand on: `before` is the sum so far and the operator after it, `x`
the product so far. -/
def readRest (value : List Char → Option V) : Option (V × BinOp) → V → List (List Char) → Option V
  | before, x, [] => some (addUp op before x)
  | _, _, [_] => none
  | before, x, w :: v :: ws =>
    match sign? w, value v with
    | some o, some y =>
      if o.isAdditive then readRest value (some (addUp op before x, o)) y ws
      else readRest value before (op o x y) ws
    | _, _ => none

/-- The value of a formula, from its words and the values of its operands. -/
def readWords (value : List Char → Option V) : List (List Char) → Option V
  | [] => none
  | w :: ws => (value w).bind fun x => readRest op value none x ws

/-- The value of an operand, from the values of texts and of the formulas in parentheses. -/
def operandValue (atom : String → V) (inside : List Char → Option V) (w : List Char) : Option V :=
  if isOperand w then
    some ((if isWrapped w then inside (peel w) else none).getD (atom (String.ofList w)))
  else none

/-- The value of a formula, with a bound on the nesting. -/
def readWithin (atom : String → V) : Nat → List Char → Option V
  | 0, _ => none
  | fuel + 1, cs => readWords op (operandValue atom (readWithin atom fuel)) (words cs)

/-- The value of a formula. -/
def readChars (atom : String → V) (cs : List Char) : Option V :=
  readWithin op atom (cs.length + 1) cs

/-- The value of a formula, given values of its operands. -/
def read (atom : String → V) (text : String) : Option V :=
  readChars op atom text.toList

variable {op}

theorem readRest_congr {value value' : List Char → Option V} :
    ∀ {ws : List (List Char)} {before : Option (V × BinOp)} {x : V}, (∀ w ∈ ws, value w = value' w) →
      readRest op value before x ws = readRest op value' before x ws
  | [], _, _, _ => rfl
  | [_], _, _, _ => rfl
  | w :: v :: ws, before, x, h => by
    have hws : ∀ u ∈ ws, value u = value' u := fun u hu => h u (by simp [hu])
    rw [readRest, readRest, h v (by simp)]
    split
    · split
      · exact readRest_congr hws
      · exact readRest_congr hws
    · rfl

/-- A formula is read by the values of its words. -/
theorem readWords_congr {value value' : List Char → Option V} {ws : List (List Char)}
    (h : ∀ w ∈ ws, value w = value' w) : readWords op value ws = readWords op value' ws := by
  cases ws with
  | nil => rfl
  | cons w ws =>
    rw [readWords, readWords, h w (by simp)]
    exact congrArg _ (funext fun x => readRest_congr fun v hv => h v (by simp [hv]))

/-- Taking off the parentheses shortens an operand. -/
theorem length_peel_lt {w : List Char} (h : isWrapped w) : (peel w).length < w.length := by
  have hlen := congrArg List.length (eq_paren_of_isWrapped h)
  simp only [List.cons_append, List.length_cons, List.length_append, List.length_nil] at hlen
  omega

/-- The bound on the nesting does not matter. -/
theorem readWithin_eq {atom : String → V} {fuel fuel' : Nat} {cs : List Char} (h : cs.length < fuel)
    (h' : cs.length < fuel') : readWithin op atom fuel cs = readWithin op atom fuel' cs := by
  induction fuel generalizing fuel' cs with
  | zero => omega
  | succ fuel ih =>
    obtain ⟨fuel', rfl⟩ : ∃ n, fuel' = n + 1 := ⟨fuel' - 1, by omega⟩
    refine readWords_congr fun w hw => ?_
    have hle := (cuts_wordsFrom {} cs).length_le w hw
    rw [operandValue, operandValue]
    split
    · by_cases hwrap : isWrapped w
      · have hlt := length_peel_lt hwrap
        have heq : readWithin op atom fuel (peel w) = readWithin op atom fuel' (peel w) :=
          ih (by omega) (by omega)
        rw [if_pos hwrap, if_pos hwrap, heq]
      · rw [if_neg hwrap, if_neg hwrap]
    · rfl

/-- **A formula is read word by word.** -/
theorem readChars_eq (atom : String → V) (cs : List Char) :
    readChars op atom cs = readWords op (operandValue atom (readChars op atom)) (words cs) := by
  refine readWords_congr fun w hw => ?_
  have hle := (cuts_wordsFrom {} cs).length_le w hw
  rw [operandValue, operandValue]
  split
  · by_cases hwrap : isWrapped w
    · have hlt := length_peel_lt hwrap
      have heq : readWithin op atom cs.length (peel w) = readChars op atom (peel w) :=
        readWithin_eq (by omega) (Nat.lt_succ_self _)
      rw [if_pos hwrap, if_pos hwrap, heq]
    · rw [if_neg hwrap, if_neg hwrap]
  · rfl

/-- Operators are grouped as usual: from left to right, products first. -/
example : read (fun o x y => "[" ++ x ++ o.text ++ y ++ "]") id "a - b / f(c, d) * (c + d) - e" =
    some "[[a-[[b/f(c, d)]*[c+d]]]-e]" := by
  decide +kernel

/-- **What is read depends on the names that the text mentions only**, and on what is no name. -/
theorem readChars_congr {atom atom' : String → V} {cs : List Char}
    (h : ∀ n : List Char, (isNameRun n → Mentions cs n) → atom (String.ofList n) = atom' (String.ofList n)) :
    readChars op atom cs = readChars op atom' cs := by
  induction hlen : cs.length using Nat.strongRecOn generalizing cs with
  | ind len ih =>
    subst hlen
    rw [readChars_eq, readChars_eq]
    refine readWords_congr fun w hw => ?_
    have hcuts := cuts_wordsFrom {} cs
    have hle := hcuts.length_le w hw
    have hself : atom (String.ofList w) = atom' (String.ofList w) :=
      h w fun hrun => hcuts.mentions w hw ⟨hrun, [], [], by simp, nofun, nofun⟩
    rw [operandValue, operandValue, hself]
    split
    · by_cases hwrap : isWrapped w
      · have hlt := length_peel_lt hwrap
        rw [if_pos hwrap, if_pos hwrap, ih (peel w).length (by omega) (fun n hn => h n fun hrun => ?_) rfl]
        refine hcuts.mentions w hw ?_
        rw [eq_paren_of_isWrapped hwrap]
        have hinside : Mentions (['('] ++ peel w ++ [')']) n :=
          mentions_between (hn hrun) (by rintro c ⟨⟩; decide) (by rintro c ⟨⟩; decide)
        exact hinside
      · rw [if_neg hwrap, if_neg hwrap]
    · rfl

/-! ## Texts that are read -/

variable (op)

/-- The value of an operand in a formula. -/
def wordValue (atom : String → V) : List Char → Option V :=
  operandValue atom (readChars op atom)

/-- Words that stand for a product: after the first of them the others make it the product so far,
whatever stands before and behind it. -/
def IsProduct (atom : String → V) (ws : List (List Char)) (x : V) : Prop :=
  ∃ w rest y, ws = w :: rest ∧ wordValue op atom w = some y ∧ ∀ before more,
    readRest op (wordValue op atom) before y (rest ++ more) = readRest op (wordValue op atom) before x more

/-- Words that stand for a sum: they leave it as the sum so far with a product. -/
def IsSum (atom : String → V) (ws : List (List Char)) (x : V) : Prop :=
  ∃ w rest y before z, ws = w :: rest ∧ wordValue op atom w = some y ∧
    (∀ more, readRest op (wordValue op atom) none y (rest ++ more) =
      readRest op (wordValue op atom) before z more) ∧ addUp op before z = x

variable {op} {atom : String → V} {ws ls rs : List (List Char)} {x y : V}

theorem isProduct_word {w : List Char} (h : wordValue op atom w = some x) : IsProduct op atom [w] x :=
  ⟨w, [], x, rfl, h, fun _ _ => rfl⟩

theorem IsProduct.isSum (h : IsProduct op atom ws x) : IsSum op atom ws x := by
  obtain ⟨w, rest, y, rfl, hw, hread⟩ := h
  exact ⟨w, rest, y, none, x, rfl, hw, hread none, rfl⟩

/-- A factor goes to the product before it. -/
theorem IsProduct.join {o : BinOp} (ho : o.isAdditive = false) (hl : IsProduct op atom ls x) {w : List Char}
    (hw : wordValue op atom w = some y) : IsProduct op atom (ls ++ [o.text.toList, w]) (op o x y) := by
  obtain ⟨v, rest, z, rfl, hv, hread⟩ := hl
  refine ⟨v, rest ++ [o.text.toList, w], z, rfl, hv, fun before more => ?_⟩
  rw [List.append_assoc, hread, List.cons_append, List.cons_append, List.nil_append, readRest, sign?_text,
    hw]
  simp [ho]

/-- A product ends the sum before it. -/
theorem IsSum.join {o : BinOp} (ho : o.isAdditive = true) (hl : IsSum op atom ls x)
    (hr : IsProduct op atom rs y) : IsSum op atom (ls ++ o.text.toList :: rs) (op o x y) := by
  obtain ⟨w, rest, u, before, z, rfl, hw, hread, rfl⟩ := hl
  obtain ⟨v, rest', t, rfl, hv, hread'⟩ := hr
  refine ⟨w, rest ++ o.text.toList :: v :: rest', u, some (addUp op before z, o), y, rfl, hw,
    fun more => ?_, rfl⟩
  rw [List.append_assoc, hread, List.cons_append, List.cons_append, readRest, sign?_text, hv]
  simpa [ho] using hread' (some (addUp op before z, o)) more

theorem IsSum.readWords_eq (h : IsSum op atom ws x) :
    readWords op (wordValue op atom) ws = some x := by
  obtain ⟨w, rest, y, before, z, rfl, hw, hread, rfl⟩ := h
  have hend := hread []
  rw [List.append_nil] at hend
  rw [readWords, hw, Option.bind_some, hend, readRest]

/-- Words with blanks between them. Each is a whole. -/
structure Spaced (cs : List Char) (ws : List (List Char)) : Prop where
  chars : cs = [' '].intercalate ws
  ne_nil : ws ≠ []
  unbroken : ∀ w ∈ ws, unbrokenFrom {} w
  balanced : ∀ w ∈ ws, balanced w

theorem spaced_operand {w : List Char} (h : isOperand w) : Spaced w [w] where
  chars := List.intercalate_singleton.symm
  ne_nil := List.cons_ne_nil _ _
  unbroken := List.forall_mem_singleton.2 (unbrokenFrom_of_isOperand h)
  balanced := List.forall_mem_singleton.2 (balanced_of_isOperand h)

theorem Spaced.words_eq {cs : List Char} (h : Spaced cs ws) : words cs = ws := by
  rw [h.chars]
  exact words_intercalate h.ne_nil h.unbroken

theorem Spaced.balanced_chars {cs : List Char} (h : Spaced cs ws) : RuleText.balanced cs := by
  obtain ⟨rfl, hne, -, hbal⟩ := h
  induction ws with
  | nil => rfl
  | cons w ws ih =>
    rw [List.forall_mem_cons] at hbal
    cases ws with
    | nil =>
      rw [List.intercalate_singleton]
      exact hbal.1
    | cons w' ws =>
      rw [List.intercalate_cons_cons, List.append_assoc, balanced_append hbal.1,
        balanced_append (a := [' ']) rfl]
      exact ih (by simp) hbal.2

/-- Two texts with an operator between them. -/
theorem Spaced.join {l r : List Char} (hl : Spaced l ls) (hr : Spaced r rs) (o : BinOp) :
    Spaced (l ++ ' ' :: (o.text.toList ++ ' ' :: r)) (ls ++ o.text.toList :: rs) where
  chars := by
    have hop : Spaced o.text.toList [o.text.toList] := by
      constructor <;> cases o <;> simp [BinOp.text] <;> rfl
    rw [intercalate_append hl.ne_nil (List.cons_ne_nil _ _), ← List.singleton_append (l := rs),
      intercalate_append (List.cons_ne_nil _ _) hr.ne_nil, ← hl.chars, ← hr.chars, ← hop.chars]
    simp
  ne_nil := by simp
  unbroken := by
    have hop : unbrokenFrom {} o.text.toList := by cases o <;> rfl
    exact List.forall_mem_append.2 ⟨hl.unbroken, List.forall_mem_cons.2 ⟨hop, hr.unbroken⟩⟩
  balanced := by
    have hop : RuleText.balanced o.text.toList := by cases o <;> rfl
    exact List.forall_mem_append.2 ⟨hl.balanced, List.forall_mem_cons.2 ⟨hop, hr.balanced⟩⟩

variable (op)

/-- A text that stands for a sum. -/
def SumText (atom : String → V) (text : String) (x : V) : Prop :=
  ∃ ws, Spaced text.toList ws ∧ IsSum op atom ws x

/-- A text that stands for a product. -/
def ProductText (atom : String → V) (text : String) (x : V) : Prop :=
  ∃ ws, Spaced text.toList ws ∧ IsProduct op atom ws x

/-- A text that stands for an operand. -/
def OperandText (atom : String → V) (text : String) (x : V) : Prop :=
  wordValue op atom text.toList = some x

variable {op} {text : String}

theorem OperandText.isOperand (h : OperandText op atom text x) : isOperand text.toList := by
  rw [OperandText, wordValue, operandValue] at h
  split at h
  · next hop => exact hop
  · cases h

theorem OperandText.product (h : OperandText op atom text x) : ProductText op atom text x :=
  ⟨_, spaced_operand h.isOperand, isProduct_word h⟩

/-- **A text that stands for a sum is read as it.** -/
theorem SumText.read_eq (h : SumText op atom text x) : read op atom text = some x := by
  obtain ⟨ws, hspaced, hsum⟩ := h
  rw [read, readChars_eq, hspaced.words_eq]
  exact hsum.readWords_eq

/-- A sum in parentheses is an operand. -/
theorem SumText.paren (h : SumText op atom text x) : OperandText op atom ("(" ++ text ++ ")") x := by
  obtain ⟨ws, hspaced, -⟩ := id h
  have hbal := hspaced.balanced_chars
  have htext : ("(" ++ text ++ ")").toList = '(' :: text.toList ++ [')'] := by simp
  have hread : readChars op atom text.toList = some x := h.read_eq
  rw [OperandText, htext, wordValue, operandValue, if_pos (isOperand_paren hbal),
    if_pos (isWrapped_paren hbal), peel_paren, hread, Option.getD_some]

/-- An operand stands for what it is read as. -/
theorem operandText_of_read (hop : isOperand text.toList) (h : read op atom text = some x) :
    OperandText op atom text x := by
  have hwords : words text.toList = [text.toList] := (spaced_operand hop).words_eq
  rw [read, readChars_eq, hwords, readWords] at h
  obtain ⟨y, hy, h⟩ := Option.bind_eq_some_iff.1 h
  obtain rfl : y = x := by simpa [readRest, addUp] using h
  exact hy

/-- A name stands for what it is bound to. -/
theorem operandText_name {n : String} (h : isNameRun n.toList) : OperandText op atom n (atom n) := by
  have hopen : isWrapped n.toList = false := by
    cases hn : n.toList with
    | nil => rfl
    | cons c cs =>
      rw [hn, isNameRun, Bool.and_eq_true] at h
      have hc : c ≠ '(' := by
        rintro rfl
        cases h.1
      simp [isWrapped, hc]
  rw [OperandText, wordValue, operandValue, if_pos (isOperand_name h), hopen, if_neg Bool.false_ne_true,
    Option.getD_none, String.ofList_toList]

variable (op)

/-- **What texts stand for in some environments**: in each of them they stand for the same. -/
def reading (envs : (String → V) → Prop) : TextReading V where
  op := op
  sum t x := ∀ atom, envs atom → SumText op atom t x
  product t x := ∀ atom, envs atom → ProductText op atom t x
  operand t x := ∀ atom, envs atom → OperandText op atom t x
  ofProduct h atom hatom := by
    obtain ⟨ws, hspaced, hproduct⟩ := h atom hatom
    exact ⟨ws, hspaced, hproduct.isSum⟩
  ofOperand h atom hatom := (h atom hatom).product
  paren h atom hatom := (h atom hatom).paren
  joinSum {o l r x y} ho hl hr atom hatom := by
    obtain ⟨ls, hls, hl⟩ := hl atom hatom
    obtain ⟨rs, hrs, hr⟩ := hr atom hatom
    have htext : (l ++ " " ++ o.text ++ " " ++ r).toList =
        l.toList ++ ' ' :: (o.text.toList ++ ' ' :: r.toList) := by simp
    exact ⟨_, htext ▸ hls.join hrs o, hl.join ho hr⟩
  joinProduct {o l r x y} ho hl hr atom hatom := by
    obtain ⟨ls, hls, hl⟩ := hl atom hatom
    have hr := hr atom hatom
    have htext : (l ++ " " ++ o.text ++ " " ++ r).toList =
        l.toList ++ ' ' :: (o.text.toList ++ ' ' :: r.toList) := by simp
    exact ⟨_, htext ▸ hls.join (spaced_operand hr.isOperand) o, hl.join ho hr⟩

end

end RecurrenceCompiler.Formula
