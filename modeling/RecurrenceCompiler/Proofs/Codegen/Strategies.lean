import RecurrenceCompiler.Proofs.Codegen.Rendering
import RecurrenceCompiler.Proofs.Expr.Sharing
import RecurrenceCompiler.Proofs.Recurrence.Steps
import RecurrenceCompiler.Proofs.Script.Mentions
import RecurrenceCompiler.Script.Reader

/-!
# Strategies of rule bodies

`Body.Renders` says what a rendered body is, one rule for each strategy (`Body.renders_of_render`). The
names that a body declares are names, each declared once (`Body.Renders.wellNamed`). If the leaves of an
expression are rendered, so is its body (`Body.exists_render`).
-/

namespace RecurrenceCompiler

open Text Decimal Arith Script

namespace Script

theorem declared_declarations (ns : List (String × String)) :
    declared (Body.declarations ns) = ns.map (·.1) := by
  induction ns with
  | nil => rfl
  | cons p ns ih =>
    rw [List.map_cons, ← ih]
    rfl

theorem declared_append {ε : Type} : ∀ ss ts : List (Stmt ε), declared (ss ++ ts) = declared ss ++ declared ts
  | [], _ => rfl
  | s :: ss, ts => by
    have ih := declared_append ss ts
    cases s <;> simp [declared, ih]

end Script

namespace Body

section
variable {d : Dialect} {call : CallText}

/-! ## What a body is -/

/-- The declarations of the branches of an average, and the sums of their names. -/
inductive Branches (d : Dialect) (call : CallText) : List Char → List (List (Term Expr)) →
    List (Stmt String) → List String → Prop
  | nil {letters : List Char} : Branches d call letters [] [] []
  | cons {letter : Char} {letters : List Char} {ts : List (Term Expr)} {sums : List (List (Term Expr))}
      {ns : List (String × String)} {stmts : List (Stmt String)} {parts : List String} :
      declareTerms d call (String.singleton letter) 1 ts = .ok ns →
      Branches d call letters sums stmts parts →
      Branches d call (letter :: letters) (ts :: sums)
        (.comment ("Branch " ++ String.singleton letter.toUpper) :: (declarations ns ++ stmts))
        (("(" ++ sumOfNames d ns ++ ")") :: parts)

/-- How an expression is rendered into a body, one rule for each strategy. -/
inductive Renders (d : Dialect) (call : CallText) (indices : List String) (threshold : Int) :
    Expr → Body → Prop
  | inline {e : Expr} {text : String} : renderExpr d call e = .ok text →
      Renders d call indices threshold e ⟨[], text, .inline⟩
  | sum {ts : List (Term Expr)} {ns : List (String × String)} : declareTerms d call "t" 1 ts = .ok ns →
      Renders d call indices threshold (.sum ts) ⟨declarations ns, sumOfNames d ns, .sum⟩
  | scaledSum {ts : List (Term Expr)} {scale : Expr} {division : Bool} {ns : List (String × String)}
      {text : String} : declareTerms d call "t" 1 ts = .ok ns → renderExpr d call scale = .ok text →
      Renders d call indices threshold (.scaled (.sum ts) scale division) ⟨declarations ns,
        "(" ++ sumOfNames d ns ++ ") " ++ (if division then "/" else "*") ++ " (" ++ text ++ ")",
        .scaledSum⟩
  | branchAverage {sums : List (List (Term Expr))} {scale : Expr} {stmts : List (Stmt String)}
      {parts : List String} {text : String} : Branches d call branchLetters sums stmts parts →
      renderExpr d call scale = .ok text →
      Renders d call indices threshold (.average (sums.map .sum) scale)
        ⟨stmts, "(" ++ " + ".intercalate parts ++ ") * (" ++ text ++ ")", .branchAverage⟩
  | cse {e : Expr} {stmts : List (Stmt String)} {text : String} :
      e.candidates indices threshold ≠ [] →
      declareShared d call (e.candidates indices threshold) = .ok stmts →
      renderExpr d call (e.shareWith indices (e.candidates indices threshold)) = .ok text →
      Renders d call indices threshold e
        ⟨.comment "CSE: cached calls and coefficients" :: stmts, text, .cse⟩

/-- The branches of an average that are all sums. -/
theorem eq_of_branchSums? {bs : List Expr} {sums : List (List (Term Expr))}
    (h : branchSums? bs = some sums) : bs = sums.map .sum := by
  induction bs generalizing sums with
  | nil =>
    cases h
    rfl
  | cons b bs ih =>
    cases b with
    | sum ts =>
      obtain ⟨rest, hrest, rfl⟩ := Option.map_eq_some_iff.1 h
      rw [ih hrest, List.map_cons]
    | _ => cases h

/-- With a letter for each branch, every branch is declared. -/
theorem branches_of_declareBranches {letters : List Char} {sums : List (List (Term Expr))}
    {stmts : List (Stmt String)} {parts : List String} (hlen : sums.length ≤ letters.length)
    (h : declareBranches d call letters sums = .ok (stmts, parts)) :
    Branches d call letters sums stmts parts := by
  induction sums generalizing letters stmts parts with
  | nil => cases letters <;> cases h <;> exact .nil
  | cons ts sums ih =>
    cases letters with
    | nil => exact absurd hlen (Nat.not_succ_le_zero _)
    | cons letter letters =>
      rw [declareBranches] at h
      obtain ⟨ns, hns, h⟩ := bind_ok h
      obtain ⟨⟨stmts', parts'⟩, hrest, h⟩ := bind_ok h
      cases h
      exact .cons hns (ih (Nat.le_of_succ_le_succ hlen) hrest)

variable {indices : List String} {threshold : Int}

theorem renders_of_unshared {e : Expr} {b : Body} (h : unshared d call e = .ok b) :
    Renders d call indices threshold e b := by
  have hinlined (h : inlined d call e = .ok b) : Renders d call indices threshold e b := by
    obtain ⟨text, htext, h⟩ := bind_ok h
    cases h
    exact .inline htext
  unfold unshared at h
  split at h
  · exact hinlined h
  · split at h
    · obtain ⟨ns, hns, h⟩ := bind_ok h
      cases h
      exact .sum hns
    · obtain ⟨ns, hns, h⟩ := bind_ok h
      obtain ⟨text, htext, h⟩ := bind_ok h
      cases h
      exact .scaledSum hns htext
    · split at h
      · next sums hsums =>
        obtain rfl := eq_of_branchSums? hsums
        split at h
        · next hlen =>
          obtain ⟨⟨stmts, parts⟩, hbranches, h⟩ := bind_ok h
          obtain ⟨text, htext, h⟩ := bind_ok h
          cases h
          exact .branchAverage (branches_of_declareBranches hlen hbranches) htext
        · exact hinlined h
      · exact hinlined h
    · exact hinlined h

/-- **A rendered body is that of one of the strategies.** -/
theorem renders_of_render {optimization : Optimization} {e : Expr} {b : Body}
    (h : render d call indices optimization threshold e = .ok b) :
    Renders d call indices threshold e b := by
  unfold render at h
  split at h
  · dsimp only at h
    split at h
    · exact renders_of_unshared h
    · next hsome =>
      obtain ⟨stmts, hstmts, h⟩ := bind_ok h
      obtain ⟨text, htext, h⟩ := bind_ok h
      cases h
      have hshared : (e.share indices threshold).result =
          e.shareWith indices (e.candidates indices threshold) := if_neg hsome
      exact .cse (fun hnil => hsome (List.isEmpty_iff.2 hnil)) hstmts (hshared ▸ htext)
  · exact renders_of_unshared h

/-! ## What is declared -/

/-- Declared terms: numbered names, with the texts of the terms. -/
theorem declareTerms_eq_ok {stem : String} {i : Nat} {ts : List (Term Expr)}
    {ns : List (String × String)} (h : declareTerms d call stem i ts = .ok ns) :
    ns.map (·.1) = (List.range' i ts.length).map (fun k => "_" ++ stem ++ toString k) ∧
      List.Forall₂ (fun t p => renderExpr d call (.term t) = .ok p.2) ts ns := by
  induction ts generalizing i ns with
  | nil =>
    cases h
    exact ⟨rfl, .nil⟩
  | cons t ts ih =>
    rw [declareTerms] at h
    obtain ⟨text, htext, h⟩ := bind_ok h
    obtain ⟨rest, hrest, h⟩ := bind_ok h
    cases h
    obtain ⟨hnames, htexts⟩ := ih hrest
    exact ⟨by rw [List.map_cons, hnames]; rfl, .cons htext htexts⟩

/-- Declared candidates: their names, with the texts of their expressions. -/
theorem declareShared_eq_ok {cs : List Candidate} {stmts : List (Stmt String)}
    (h : declareShared d call cs = .ok stmts) : ∃ ns, stmts = declarations ns ∧
      ns.map (·.1) = cs.map (·.name) ∧
      List.Forall₂ (fun c p => renderExpr d call c.expr = .ok p.2) cs ns := by
  induction cs generalizing stmts with
  | nil =>
    cases h
    exact ⟨[], rfl, rfl, .nil⟩
  | cons c cs ih =>
    rw [declareShared] at h
    obtain ⟨text, htext, h⟩ := bind_ok h
    obtain ⟨rest, hrest, h⟩ := bind_ok h
    cases h
    obtain ⟨ns, rfl, hnames, htexts⟩ := ih hrest
    exact ⟨(c.name, text) :: ns, rfl, congrArg (c.name :: ·) hnames, .cons htext htexts⟩

/-! ## Names -/

theorem toList_toString (n : Nat) : (toString n).toList = Nat.toDigits 10 n :=
  String.toList_ofList

/-- The digits of a number may continue a name. -/
theorem continuesName_toString (n : Nat) : ∀ c ∈ (toString n).toList, continuesName c := by
  rw [toList_toString]
  intro c hc
  exact continuesName_of_isWord (by simp [isWord, List.all_eq_true.1 (all_isDigit_toDigits n) c hc])

/-- What follows an underscore makes a name of it. -/
theorem isNameRun_underscore {rest : String} (h : ∀ c ∈ rest.toList, continuesName c) :
    isNameRun ("_" ++ rest).toList := by
  rw [String.toList_append]
  exact Bool.and_eq_true_iff.2 ⟨rfl, List.all_eq_true.2 h⟩

theorem isNameRun_numbered {stem : String} (h : ∀ c ∈ stem.toList, continuesName c) (k : Nat) :
    isNameRun ("_" ++ stem ++ toString k).toList := by
  rw [String.append_assoc]
  refine isNameRun_underscore ?_
  rw [String.toList_append, List.forall_mem_append]
  exact ⟨h, continuesName_toString k⟩

/-- A letter and a number are read off the name that they make. -/
theorem numbered_inj {a a' : Char} {k k' : Nat}
    (h : "_" ++ String.singleton a ++ toString k = "_" ++ String.singleton a' ++ toString k') :
    a = a' ∧ k = k' := by
  have hlist := congrArg String.toList h
  simp only [String.toList_append, toList_toString] at hlist
  obtain ⟨rfl, hdigits⟩ : a = a' ∧ Nat.toDigits 10 k = Nat.toDigits 10 k' := by simpa using hlist
  exact ⟨rfl, by simpa using congrArg natOfDigits hdigits⟩

theorem nodup_numbered (a : Char) (i n : Nat) :
    ((List.range' i n).map fun k => "_" ++ String.singleton a ++ toString k).Nodup :=
  List.Nodup.map (fun _ _ h => (numbered_inj h).2) List.nodup_range'

/-- Names that may be declared: each is a name, and no two are the same. -/
structure WellNamed (ns : List String) : Prop where
  isNameRun : ∀ n ∈ ns, isNameRun n.toList
  nodup : ns.Nodup

theorem wellNamed_numbered {a : Char} (ha : continuesName a) {i : Nat} {ts : List (Term Expr)}
    {ns : List (String × String)} (h : declareTerms d call (String.singleton a) i ts = .ok ns) :
    WellNamed (ns.map (·.1)) := by
  rw [(declareTerms_eq_ok h).1]
  refine ⟨List.forall_mem_map.2 fun k _ => isNameRun_numbered ?_ k, nodup_numbered a i ts.length⟩
  simpa using ha

theorem declared_branch (t : String) (ns : List (String × String)) (stmts : List (Stmt String)) :
    declared (.comment t :: (declarations ns ++ stmts)) = ns.map (·.1) ++ declared stmts := by
  rw [← declared_declarations, ← declared_append]
  rfl

section
variable {letters : List Char} {sums : List (List (Term Expr))} {stmts : List (Stmt String)}
  {parts : List String}

/-- What branches declare are letters with numbers. -/
theorem Branches.mem_declared (h : Branches d call letters sums stmts parts) {n : String}
    (hn : n ∈ declared stmts) : ∃ a ∈ letters, ∃ k : Nat, n = "_" ++ String.singleton a ++ toString k := by
  induction h with
  | nil => cases hn
  | @cons letter letters ts sums ns stmts parts hns _ ih =>
    rw [declared_branch, (declareTerms_eq_ok hns).1] at hn
    rcases List.mem_append.1 hn with hn | hn
    · obtain ⟨k, -, rfl⟩ := List.mem_map.1 hn
      exact ⟨letter, by simp, k, rfl⟩
    · obtain ⟨a, ha, k, hk⟩ := ih hn
      exact ⟨a, by simp [ha], k, hk⟩

theorem Branches.wellNamed (h : Branches d call letters sums stmts parts)
    (hletters : ∀ c ∈ letters, continuesName c) (hnodup : letters.Nodup) : WellNamed (declared stmts) := by
  induction h with
  | nil => exact ⟨nofun, List.nodup_nil⟩
  | @cons letter letters ts sums ns stmts parts hns hrest ih =>
    rw [List.forall_mem_cons] at hletters
    obtain ⟨hletter, hnodup⟩ := List.nodup_cons.1 hnodup
    have hfirst := wellNamed_numbered hletters.1 hns
    have hothers := ih hletters.2 hnodup
    rw [declared_branch]
    refine ⟨List.forall_mem_append.2 ⟨hfirst.isNameRun, hothers.isNameRun⟩,
      hfirst.nodup.append hothers.nodup fun n hn hn' => ?_⟩
    rw [(declareTerms_eq_ok hns).1] at hn
    obtain ⟨k, -, rfl⟩ := List.mem_map.1 hn
    obtain ⟨a, ha, k', hk⟩ := hrest.mem_declared hn'
    obtain ⟨rfl, -⟩ := numbered_inj hk
    exact hletter ha

end

/-- Every letter makes a name. -/
theorem continuesName_branchLetters : ∀ c ∈ branchLetters, continuesName c :=
  List.all_eq_true.1 (by decide)

theorem nodup_branchLetters : branchLetters.Nodup := by
  decide

/-- The name of a candidate is a name. -/
theorem isNameRun_candidate {e : Expr} {c : Candidate} (h : c ∈ e.candidates indices threshold) :
    isNameRun c.name.toList := by
  obtain ⟨-, k, -, hname⟩ := Expr.mem_nameFrom h
  have hkind : ∀ x ∈ ("cse_" ++ c.kind.text ++ "_").toList, continuesName x := by
    cases c.kind <;> exact List.all_eq_true.1 rfl
  have heq : c.name = "_" ++ ("cse_" ++ c.kind.text ++ "_") ++ toString k := by
    rw [hname]
    exact String.toList_inj.1 (by simp)
  rw [heq]
  exact isNameRun_numbered hkind k

/-- **A body declares names, each once.** -/
theorem Renders.wellNamed {e : Expr} {b : Body} (h : Renders d call indices threshold e b) :
    WellNamed (declared b.statements) := by
  have hterms {ts : List (Term Expr)} {ns : List (String × String)}
      (h : declareTerms d call "t" 1 ts = .ok ns) : WellNamed (declared (declarations ns)) := by
    rw [declared_declarations]
    exact wellNamed_numbered (a := 't') rfl h
  cases h with
  | inline => exact ⟨nofun, List.nodup_nil⟩
  | sum h | scaledSum h _ => exact hterms h
  | branchAverage h _ => exact h.wellNamed continuesName_branchLetters nodup_branchLetters
  | cse _ h _ =>
    obtain ⟨ns, rfl, hnames, -⟩ := declareShared_eq_ok h
    have hdeclared := declared_branch "CSE: cached calls and coefficients" ns []
    rw [List.append_nil] at hdeclared
    rw [hdeclared, hnames, declared, List.append_nil]
    exact ⟨List.forall_mem_map.2 fun c hc => isNameRun_candidate hc, Expr.nodup_nameFrom 1 _⟩

end

end Body

/-! ## Shared forms are rendered without regrouping -/

namespace Expr

variable {indices : List String} {cs : List Candidate}

theorem regular_termVisit {t : Term Expr} (h : t.coeff.Regular) : ∀ p ∈ termVisits t, p.2.Regular := by
  intro p hp
  rcases List.mem_append.1 hp with hp | hp
  · split at hp
    · cases hp
    · obtain rfl := List.mem_singleton.1 hp
      exact h
  · split at hp
    · obtain rfl := List.mem_singleton.1 hp
      exact .leaf rfl
    · cases hp

/-- The places of an expression are rendered without regrouping if it is. -/
theorem Regular.visit {e : Expr} (h : e.Regular) : ∀ p ∈ e.visits, p.2.Regular := by
  induction h with
  | @leaf e hleaf =>
    cases e with
    | call c => exact List.forall_mem_singleton.2 (.leaf rfl)
    | const | var | index | lookup | ref => exact nofun
    | _ => cases hleaf
  | binop _ _ _ _ ihl ihr => exact List.forall_mem_append.2 ⟨ihl, ihr⟩
  | term h => exact regular_termVisit h
  | sum _ h => exact List.forall_mem_flatMap.2 fun t ht => regular_termVisit (h t ht)
  | scaled _ hscale ih => exact List.forall_mem_append.2 ⟨ih, List.forall_mem_singleton.2 hscale⟩
  | average _ _ hscale ih =>
    rw [visits, Interpretation.visitsOfList_eq]
    exact List.forall_mem_append.2 ⟨List.forall_mem_flatMap.2 ih, List.forall_mem_singleton.2 hscale⟩

theorem Regular.shareCoeff {e : Expr} (h : e.Regular) : (e.shareCoeff indices cs).Regular := by
  rw [Expr.shareCoeff]
  split
  · exact .leaf rfl
  · exact h

theorem regular_shareTerm {t : Term Expr} (h : t.coeff.Regular) :
    (shareTerm indices cs t).coeff.Regular := by
  rw [shareTerm]
  dsimp only
  split
  · exact h
  · exact h.shareCoeff

theorem isTerm_shareWith {e : Expr} (h : e.isTerm = false) : (e.shareWith indices cs).isTerm = false := by
  cases e with
  | call c =>
    rw [shareWith]
    split <;> rfl
  | term => cases h
  | _ => rfl

/-- **A shared form is rendered without regrouping** if the expression is. -/
theorem Regular.shareWith {e : Expr} (h : e.Regular) : (e.shareWith indices cs).Regular := by
  induction h with
  | @leaf e hleaf =>
    cases e with
    | call c =>
      rw [Expr.shareWith]
      split <;> exact .leaf rfl
    | const | var | index | lookup | ref => exact .leaf rfl
    | _ => cases hleaf
  | binop _ _ hl hr ihl ihr => exact .binop ihl ihr (isTerm_shareWith hl) (isTerm_shareWith hr)
  | term h => exact .term (regular_shareTerm h)
  | sum hne h =>
    refine .sum (by simpa using hne) (List.forall_mem_map.2 fun t ht => ?_)
    exact regular_shareTerm (h t ht)
  | scaled _ hscale ih => exact .scaled ih hscale.shareCoeff
  | average hne _ hscale ih =>
    rw [Expr.shareWith, Interpretation.shareListWith_eq]
    exact .average (by simpa using hne) (List.forall_mem_map.2 ih) hscale.shareCoeff

end Expr

/-! ## Bodies are rendered -/

namespace Body

section
variable {d : Dialect} {call : CallText}

theorem exists_declareTerms {ts : List (Term Expr)}
    (h : ∀ t ∈ ts, ∃ text, renderExpr d call (.term t) = .ok text) (stem : String) (i : Nat) :
    ∃ ns, declareTerms d call stem i ts = .ok ns := by
  induction ts generalizing i with
  | nil => exact ⟨[], rfl⟩
  | cons t ts ih =>
    rw [List.forall_mem_cons] at h
    obtain ⟨text, htext⟩ := h.1
    obtain ⟨ns, hns⟩ := ih h.2 (i + 1)
    exact ⟨_, by rw [declareTerms, htext, hns]; rfl⟩

theorem exists_declareBranches {sums : List (List (Term Expr))}
    (h : ∀ ts ∈ sums, ∀ t ∈ ts, ∃ text, renderExpr d call (.term t) = .ok text) (letters : List Char) :
    ∃ declared, declareBranches d call letters sums = .ok declared := by
  induction sums generalizing letters with
  | nil => cases letters <;> exact ⟨_, rfl⟩
  | cons ts sums ih =>
    rw [List.forall_mem_cons] at h
    cases letters with
    | nil => exact ⟨_, rfl⟩
    | cons letter letters =>
      obtain ⟨ns, hns⟩ := exists_declareTerms h.1 (String.singleton letter) 1
      obtain ⟨rest, hrest⟩ := ih h.2 letters
      exact ⟨_, by rw [declareBranches, hns, hrest]; rfl⟩

theorem exists_declareShared {cs : List Candidate}
    (h : ∀ c ∈ cs, ∃ text, renderExpr d call c.expr = .ok text) :
    ∃ stmts, declareShared d call cs = .ok stmts := by
  induction cs with
  | nil => exact ⟨[], rfl⟩
  | cons c cs ih =>
    rw [List.forall_mem_cons] at h
    obtain ⟨text, htext⟩ := h.1
    obtain ⟨rest, hrest⟩ := ih h.2
    exact ⟨_, by rw [declareShared, htext, hrest]; rfl⟩

/-- The terms of a sum are rendered if its leaves are. -/
theorem exists_termTexts {ts : List (Term Expr)} (hts : (Expr.sum ts).Regular)
    (hleaves : ∀ l ∈ (Expr.sum ts).leaves, ∃ text, renderExpr d call l = .ok text) :
    ∀ t ∈ ts, ∃ text, renderExpr d call (.term t) = .ok text := by
  intro t ht
  cases hts with
  | leaf h => cases h
  | sum _ hts =>
    exact Expr.exists_text (.term (hts t ht)) fun l hl => hleaves l (Expr.leaves_term_subset ht hl)

variable {e : Expr} (he : e.Regular)
  (hleaves : ∀ l ∈ e.leaves, ∃ text, renderExpr d call l = .ok text)
include he hleaves

theorem exists_inlined : ∃ b, inlined d call e = .ok b := by
  obtain ⟨text, htext⟩ := Expr.exists_text he hleaves
  exact ⟨_, by rw [inlined, htext]; rfl⟩

theorem exists_unshared : ∃ b, unshared d call e = .ok b := by
  have hinlined := exists_inlined he hleaves
  unfold unshared
  split
  · exact hinlined
  · split
    · obtain ⟨ns, hns⟩ := exists_declareTerms (exists_termTexts he hleaves) "t" 1
      exact ⟨_, by rw [hns]; rfl⟩
    · cases he with
      | leaf h => cases h
      | scaled hinner hscale =>
        rw [Expr.leaves, List.forall_mem_append] at hleaves
        obtain ⟨ns, hns⟩ := exists_declareTerms (exists_termTexts hinner hleaves.1) "t" 1
        obtain ⟨text, htext⟩ := Expr.exists_text hscale hleaves.2
        exact ⟨_, by rw [hns, htext]; rfl⟩
    · split
      · next sums hsums =>
        obtain rfl := eq_of_branchSums? hsums
        split
        · cases he with
          | leaf h => cases h
          | average _ hbs hscale =>
            rw [Expr.leaves_average, List.forall_mem_append, List.forall_mem_flatMap] at hleaves
            have hterms : ∀ ts ∈ sums, ∀ t ∈ ts, ∃ text, renderExpr d call (.term t) = .ok text := by
              intro ts hts
              have hmem : Expr.sum ts ∈ sums.map .sum := List.mem_map_of_mem hts
              exact exists_termTexts (hbs _ hmem) (hleaves.1 _ hmem)
            obtain ⟨⟨stmts, parts⟩, hstmts⟩ := exists_declareBranches hterms branchLetters
            obtain ⟨text, htext⟩ := Expr.exists_text hscale hleaves.2
            exact ⟨_, by rw [hstmts, htext]; rfl⟩
        · exact hinlined
      · exact hinlined
    · exact hinlined

/-- **A body is rendered if the leaves of its expression are.** -/
theorem exists_render (indices : List String) (optimization : Optimization) (threshold : Int) :
    ∃ b, render d call indices optimization threshold e = .ok b := by
  unfold render
  split
  · dsimp only
    split
    · exact exists_unshared he hleaves
    · next hsome =>
      have hcandidates : ∀ c ∈ e.candidates indices threshold,
          ∃ text, renderExpr d call c.expr = .ok text := fun c hc => by
        have hplace := (Expr.mem_candidates hc).1
        exact Expr.exists_text (he.visit _ hplace) fun l hl =>
          hleaves l (Expr.leaves_visit_subset hplace hl)
      obtain ⟨stmts, hstmts⟩ := exists_declareShared hcandidates
      have hregular : (e.shareWith indices (e.candidates indices threshold)).Regular := he.shareWith
      obtain ⟨text, htext⟩ := Expr.exists_text hregular
        (Expr.forall_leaves_shareWith (fun c _ => ⟨c.name, rfl⟩) hleaves)
      have hshared : (e.share indices threshold).result =
          e.shareWith indices (e.candidates indices threshold) := if_neg hsome
      have hstmts : declareShared d call (e.share indices threshold).candidates = .ok stmts := hstmts
      exact ⟨_, by rw [hstmts, hshared, htext]; rfl⟩
  · exact exists_unshared he hleaves

end

end Body

end RecurrenceCompiler
