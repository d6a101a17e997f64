import RecurrenceCompiler.Proofs.Script.Elements
import RecurrenceCompiler.Proofs.Script.Scopes

/-!
# Accesses to tables

Running statements reads elements of tables and writes slots of `out`. `Accesses` says which, along a run:
what is evaluated depends on the conditions before it, and a statement runs in the scope that those before
it have left. A loop is at its head once before each pass (`Heads`).

The body of a rule declares values and then writes a slot. What it accesses is known from the parts of its
expressions that read tables, as long as what they depend on is not assigned (`accesses_body`).
-/

namespace RecurrenceCompiler.Script

open Arith

variable {α : Type} [Carrier α]

/-! ## Expressions -/

/-- An expression is evaluated where another one is: it is that one, or a part that is reached. -/
inductive Expression.EvaluatedIn (names : Expression.Names α) (functions : Expression.Functions α)
    (x : Expression) : Expression → Prop
  | self : EvaluatedIn names functions x x
  | negate {e} : EvaluatedIn names functions x e → EvaluatedIn names functions x (.negate e)
  | positive {e} : EvaluatedIn names functions x e → EvaluatedIn names functions x (.positive e)
  | not {e} : EvaluatedIn names functions x e → EvaluatedIn names functions x (.not e)
  | left {op l r} : EvaluatedIn names functions x l → EvaluatedIn names functions x (.binary op l r)
  | right {op l r} : EvaluatedIn names functions x r → EvaluatedIn names functions x (.binary op l r)
  | bothLeft {l r} : EvaluatedIn names functions x l → EvaluatedIn names functions x (.both l r)
  | bothRight {l r v} : l.eval names functions = .ok v → v.holds = true →
      EvaluatedIn names functions x r → EvaluatedIn names functions x (.both l r)
  | eitherLeft {l r} : EvaluatedIn names functions x l → EvaluatedIn names functions x (.either l r)
  | eitherRight {l r v} : l.eval names functions = .ok v → v.holds = false →
      EvaluatedIn names functions x r → EvaluatedIn names functions x (.either l r)
  | test {t y n} : EvaluatedIn names functions x t → EvaluatedIn names functions x (.cond t y n)
  | yes {t y n v} : t.eval names functions = .ok v → v.holds = true →
      EvaluatedIn names functions x y → EvaluatedIn names functions x (.cond t y n)
  | no {t y n v} : t.eval names functions = .ok v → v.holds = false →
      EvaluatedIn names functions x n → EvaluatedIn names functions x (.cond t y n)
  | table {t i} : EvaluatedIn names functions x t → EvaluatedIn names functions x (.element t i)
  | index {t i} : EvaluatedIn names functions x i → EvaluatedIn names functions x (.element t i)
  | member {e n} : EvaluatedIn names functions x e → EvaluatedIn names functions x (.member e n)
  | callee {f args} : EvaluatedIn names functions x f → EvaluatedIn names functions x (.call f args)
  | arg {f args a} : a ∈ args → EvaluatedIn names functions x a → EvaluatedIn names functions x (.call f args)
  | maker {f length} : EvaluatedIn names functions x f → EvaluatedIn names functions x (.zeros f length)
  | length {f length} : EvaluatedIn names functions x length → EvaluatedIn names functions x (.zeros f length)

namespace Expression

/-- An expression that reads no table. -/
def Plain (e : Expression) : Prop :=
  e.Over fun _ => False

variable {names : Names α} {functions : Functions α} {part : Expression → Prop} {e t i : Expression}

/-- **What an expression over known parts reads, one of the parts reads.** -/
theorem Over.evaluatedIn (h : e.Over part) (hread : EvaluatedIn names functions (.element t i) e) :
    ∃ p, part p ∧ EvaluatedIn names functions (.element t i) p := by
  induction hread with
  | self =>
    cases h with
    | part hp => exact ⟨_, hp, .self⟩
  | negate hread ih =>
    cases h with
    | part hp => exact ⟨_, hp, .negate hread⟩
    | negate h => exact ih h
  | positive hread ih =>
    cases h with
    | part hp => exact ⟨_, hp, .positive hread⟩
    | positive h => exact ih h
  | not hread ih =>
    cases h with
    | part hp => exact ⟨_, hp, .not hread⟩
    | not h => exact ih h
  | left hread ih =>
    cases h with
    | part hp => exact ⟨_, hp, .left hread⟩
    | binary hl _ => exact ih hl
  | right hread ih =>
    cases h with
    | part hp => exact ⟨_, hp, .right hread⟩
    | binary _ hr => exact ih hr
  | bothLeft hread ih =>
    cases h with
    | part hp => exact ⟨_, hp, .bothLeft hread⟩
    | both hl _ => exact ih hl
  | bothRight hv hholds hread ih =>
    cases h with
    | part hp => exact ⟨_, hp, .bothRight hv hholds hread⟩
    | both _ hr => exact ih hr
  | eitherLeft hread ih =>
    cases h with
    | part hp => exact ⟨_, hp, .eitherLeft hread⟩
    | either hl _ => exact ih hl
  | eitherRight hv hholds hread ih =>
    cases h with
    | part hp => exact ⟨_, hp, .eitherRight hv hholds hread⟩
    | either _ hr => exact ih hr
  | test hread ih =>
    cases h with
    | part hp => exact ⟨_, hp, .test hread⟩
    | cond ht _ _ => exact ih ht
  | yes hv hholds hread ih =>
    cases h with
    | part hp => exact ⟨_, hp, .yes hv hholds hread⟩
    | cond _ hy _ => exact ih hy
  | no hv hholds hread ih =>
    cases h with
    | part hp => exact ⟨_, hp, .no hv hholds hread⟩
    | cond _ _ hn => exact ih hn
  | member hread ih =>
    cases h with
    | part hp => exact ⟨_, hp, .member hread⟩
    | member h => exact ih h
  | callee hread ih =>
    cases h with
    | part hp => exact ⟨_, hp, .callee hread⟩
    | call hf _ => exact ih hf
  | arg ha hread ih =>
    cases h with
    | part hp => exact ⟨_, hp, .arg ha hread⟩
    | call _ hargs => exact ih (hargs _ ha)
  | table hread ih =>
    cases h with
    | part hp => exact ⟨_, hp, .table hread⟩
  | index hread ih =>
    cases h with
    | part hp => exact ⟨_, hp, .index hread⟩
  | maker hread ih =>
    cases h with
    | part hp => exact ⟨_, hp, .maker hread⟩
  | length hread ih =>
    cases h with
    | part hp => exact ⟨_, hp, .length hread⟩

theorem Plain.not_evaluatedIn (h : e.Plain) : ¬ EvaluatedIn names functions (.element t i) e := fun hread =>
  let ⟨_, hp, _⟩ := h.evaluatedIn hread
  hp

/-- The only read of an element whose table and index read nothing. -/
theorem EvaluatedIn.eq_of_plain {t' i' : Expression} (ht : t'.Plain) (hi : i'.Plain)
    (h : EvaluatedIn names functions (.element t i) (.element t' i')) : t = t' ∧ i = i' := by
  cases h with
  | self => exact ⟨rfl, rfl⟩
  | table h => exact absurd h ht.not_evaluatedIn
  | index h => exact absurd h hi.not_evaluatedIn

end Expression

/-! ## Statements -/

/-- An access to a table: an element is read, or a slot of `out` is written. -/
inductive Access (α : Type) where
  | read (table : Expression) (index : Value α)
  | write (slot : Value α)

/-- The expressions that a statement evaluates in the scope in which it starts. The test of a loop is left
out: it compares two names. -/
def evaluated : Stmt Expression → List Expression
  | .run e | .value _ e | .index _ e | .ret e => [e]
  | .retIf c e => [c, e]
  | .write slot e => [slot, e]
  | .previous p => [PreviousLayer.buffer p]
  | .when c _ => [c]
  | _ => []

section
variable (limits : Limits) (w : World α)

/-- Whether a loop has another pass. -/
def World.goesOn (n : String) (s : Locals α) : Except Error Bool :=
  w.test s (.binary .lt (.name n) (.name "N_VALUES"))

/-- The scopes at the head of a loop, from the first one on. -/
inductive Heads (n : String) (body : List (Stmt Expression)) (s : Locals α) : Locals α → Prop
  | start : Heads n body s s
  | pass {t u v} : Heads n body s t → w.goesOn n t = .ok true →
      runStmts limits w (t.enter (declared body)) body = .ok (u, none) →
      w.eval (t.leave u) (.name n) = .ok v →
      Heads n body s ((t.leave u).assign n (.num (Carrier.add v.toNumber (Carrier.ofInt 1))))

/-- Statements that run in a scope access a table. -/
inductive Accesses : Locals α → List (Stmt Expression) → Access α → Prop
  | read {s stmt rest e t i v} : e ∈ evaluated stmt →
      Expression.EvaluatedIn (s.read w.names) w.value (.element t i) e → w.eval s i = .ok v →
      Accesses s (stmt :: rest) (.read t v)
  | fill {s p rest buffer t i v} : w.eval s (PreviousLayer.buffer p) = .ok buffer →
      Expression.EvaluatedIn ((s.assign p.name buffer).read w.names) w.value (.element t i)
        (PreviousLayer.fill p) →
      w.eval (s.assign p.name buffer) i = .ok v → Accesses s (.previous p :: rest) (.read t v)
  | write {s slot e rest v} : w.eval s slot = .ok v → Accesses s (.write slot e :: rest) (.write v)
  | when {s c body rest a} : w.test s c = .ok true → Accesses (s.enter (declared body)) body a →
      Accesses s (.when c body :: rest) a
  | loop {s n start body rest t a} :
      Heads limits w n body (⟨n, some (.num (Carrier.ofInt start))⟩ :: s) t → w.goesOn n t = .ok true →
      Accesses (t.enter (declared body)) body a → Accesses s (.loop n start body :: rest) a
  | block {s body rest a} : Accesses (s.enter (declared body)) body a →
      Accesses s (.block body :: rest) a
  | next {s s' stmt rest a} : runStmt limits w s stmt = .ok (s', none) → Accesses s' rest a →
      Accesses s (stmt :: rest) a

end

section
variable {limits : Limits} {w : World α} {s s' : Locals α}

/-- Statements that run to their end are followed by the accesses of those after them. -/
theorem Accesses.append {pre rest : List (Stmt Expression)} {a : Access α}
    (h : runStmts limits w s pre = .ok (s', none)) (ha : Accesses limits w s' rest a) :
    Accesses limits w s (pre ++ rest) a := by
  induction pre generalizing s with
  | nil =>
    cases h
    exact ha
  | cons stmt pre ih =>
    obtain ⟨t, hstmt, h⟩ := runStmts_cons_none h
    exact .next hstmt (ih h)

/-- The write at the end of statements is reached once those before it have run. -/
theorem Accesses.last {body : List (Stmt Expression)} {slot e : Expression} {v : Value α}
    (hlast : body.getLast? = some (.write slot e)) (h : runStmts limits w s body.dropLast = .ok (s', none))
    (hv : w.eval s' slot = .ok v) : Accesses limits w s body (.write v) := by
  rw [← List.dropLast_append_getLast? _ hlast]
  exact .append h (.write hv)

omit [Carrier α] in
/-- What each pass keeps holds at the end of a loop, where it does not go on. -/
theorem iterate_none {test : Locals α → Except Error Bool} {step : Locals α → Except Error (Outcome α)}
    {next : Locals α → Except Error (Locals α)} (Inv : Locals α → Prop)
    (hpass : ∀ s t u, Inv s → test s = .ok true → step s = .ok (t, none) → next t = .ok u → Inv u)
    {passes : Nat} (hs : Inv s) (h : iterate test step next passes s = .ok (s', none)) :
    Inv s' ∧ test s' = .ok false := by
  induction passes generalizing s with
  | zero => cases h
  | succ passes ih =>
    rw [iterate] at h
    obtain ⟨b, hb, h⟩ := bind_ok h
    cases b with
    | false =>
      cases h
      exact ⟨hs, hb⟩
    | true =>
      obtain ⟨⟨t, r⟩, ht, h⟩ := bind_ok h
      cases r with
      | some v => cases h
      | none =>
        obtain ⟨u, hu, h⟩ := bind_ok h
        exact ih (hpass s t u hs hb ht hu) h

/-- **A loop that runs to its end ends at a head, where it does not go on.** -/
theorem runStmt_loop_none {n : String} {start : Int} {body : List (Stmt Expression)}
    (h : runStmt limits w s (.loop n start body) = .ok (s', none)) :
    ∃ t, Heads limits w n body (⟨n, some (.num (Carrier.ofInt start))⟩ :: s) t ∧
      w.goesOn n t = .ok false ∧ s' = s.leave t := by
  rw [runStmt] at h
  obtain ⟨⟨t, r⟩, hiterate, h⟩ := bind_ok h
  cases h
  have hends := iterate_none
    (Heads limits w n body (⟨n, some (.num (Carrier.ofInt start))⟩ :: s))
    (fun s t u hs hb ht hu => by
      obtain ⟨⟨inner, r⟩, hrun, ht⟩ := bind_ok ht
      cases ht
      obtain ⟨v, hv, hu⟩ := bind_ok hu
      cases hu
      exact hs.pass hb hrun hv) .start hiterate
  exact ⟨t, hends.1, hends.2, rfl⟩

end

/-! ## Bodies that write a slot -/

/-- The body of a rule: it declares values and then writes a slot, and reads tables in parts of a kind
only. -/
inductive WritesSlot (part : Expression → Prop) (slot : Expression) : List (Stmt Expression) → Prop
  | write {e} : e.Over part → WritesSlot part slot [.write slot e]
  | comment {t ss} : WritesSlot part slot ss → WritesSlot part slot (.comment t :: ss)
  | value {n e ss} : e.Over part → WritesSlot part slot ss → WritesSlot part slot (.value n e :: ss)

section
variable {limits : Limits} {w : World α} {part : Expression → Prop} {slot : Expression}
  {body : List (Stmt Expression)}

/-- **What the body of a rule accesses**, if what its accesses depend on is kept while it assigns the names
that it declares. -/
theorem accesses_body (Inv : Locals α → Prop) {P : Access α → Prop} (h : WritesSlot part slot body)
    (hslot : slot.Plain)
    (hassign : ∀ s n v, Inv s → n ∈ declared body → Inv (s.assign n v))
    (hread : ∀ s e t i v, Inv s → part e →
      Expression.EvaluatedIn (s.read w.names) w.value (.element t i) e → w.eval s i = .ok v →
      P (.read t v))
    (hwrite : ∀ s v, Inv s → w.eval s slot = .ok v → P (.write v))
    {s : Locals α} (hs : Inv s) {a : Access α} (ha : Accesses limits w s body a) : P a := by
  have hover {s : Locals α} {e t i : Expression} {v : Value α} (hs : Inv s) (he : e.Over part)
      (h : Expression.EvaluatedIn (s.read w.names) w.value (.element t i) e) (hv : w.eval s i = .ok v) :
      P (.read t v) := by
    obtain ⟨p, hp, hpart⟩ := he.evaluatedIn h
    exact hread s p t i v hs hp hpart hv
  induction h generalizing s with
  | @write e he =>
    cases ha with
    | read hmem heval hv =>
      rcases List.mem_pair.1 hmem with rfl | rfl
      · exact absurd heval hslot.not_evaluatedIn
      · exact hover hs he heval hv
    | write hv => exact hwrite s _ hs hv
    | next _ ha => cases ha
  | comment _ ih =>
    cases ha with
    | read hmem => cases hmem
    | next hrun ha =>
      cases hrun
      exact ih hassign hs ha
  | @value n e ss he _ ih =>
    cases ha with
    | read hmem heval hv =>
      obtain rfl := List.mem_singleton.1 hmem
      exact hover hs he heval hv
    | next hrun ha =>
      obtain ⟨v, -, rfl, -⟩ := runStmt_value hrun
      exact ih (fun s m v hs hm => hassign s m v hs (List.mem_cons_of_mem n hm))
        (hassign s n v hs List.mem_cons_self) ha

/-- **The body of a rule returns nothing, and leaves all names as they were but those that it declares and
the layer.** -/
theorem runStmts_body (h : WritesSlot part slot body) {s s' : Locals α} {r : Option (Value α)}
    (hrun : runStmts limits w s body = .ok (s', r)) :
    r = none ∧ s'.names = s.names ∧
      ∀ m, m ≠ "out" → m ∉ declared body → s'.find? m = s.find? m := by
  induction h generalizing s with
  | write =>
    obtain ⟨⟨u, v⟩, hu, hrun⟩ := bind_ok hrun
    rw [runStmt] at hu
    obtain ⟨table, -, hu⟩ := bind_ok hu
    obtain ⟨k, -, hu⟩ := bind_ok hu
    obtain ⟨x, -, hu⟩ := bind_ok hu
    obtain ⟨table', -, hu⟩ := bind_ok hu
    cases hu
    cases hrun
    exact ⟨rfl, Locals.names_assign .., fun m hm _ => Locals.find?_assign_of_ne hm⟩
  | comment _ ih => exact ih hrun
  | @value n e ss he _ ih =>
    rw [runStmts] at hrun
    obtain ⟨⟨u, v⟩, hu, hrun⟩ := bind_ok hrun
    obtain ⟨x, -, rfl, rfl⟩ := runStmt_value hu
    obtain ⟨rfl, hnames, hfind⟩ := ih hrun
    refine ⟨rfl, by rw [hnames, Locals.names_assign], fun m hm hnot => ?_⟩
    rw [declared, List.mem_cons, not_or] at hnot
    rw [hfind m hm hnot.2, Locals.find?_assign_of_ne hnot.1]

/-- **A block with the body of a rule leaves all names as they were but the layer.** Those that the body
declares are gone. -/
theorem find?_leave_body (h : WritesSlot part slot body) {s u : Locals α} {r : Option (Value α)}
    (hrun : runStmts limits w (s.enter (declared body)) body = .ok (u, r)) {m : String} (hm : m ≠ "out")
    (hnot : m ∉ declared body) : (s.leave u).find? m = s.find? m := by
  obtain ⟨-, hnames, hfind⟩ := runStmts_body h hrun
  rw [Locals.names_enter] at hnames
  rw [Locals.find?_leave hnames hnot, hfind m hm hnot, Locals.find?_enter hnot]

end

end RecurrenceCompiler.Script
