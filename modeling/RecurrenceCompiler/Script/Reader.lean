import RecurrenceCompiler.Script.Expression
import RecurrenceCompiler.Script.Module

/-!
# Reading scripts

A script is read by parsing the texts in its statements and checking the names that it declares. A
name may be declared once in a block, not again in the block of a function that has it as a
parameter, and neither a reserved word nor, in a block, `let` can be declared.

A comment ends with its line. What stands on further lines of a comment's text is therefore code: it
is read as statements, each an expression or a `return`, that end at a semicolon or where the next
one starts a new line.
-/

namespace RecurrenceCompiler.Script

open Text

/-- What is wrong with a script that cannot be read. -/
def malformed : Error :=
  .fault (.malformed "")

/-- A result that may be missing. -/
def orMalformed : Option α → Except Error α
  | some v => .ok v
  | none => .error malformed

/-! ## Code after a comment -/

/-- Where a character of a script stands. -/
inductive Region where
  | code
  /-- In a comment that ends with its line. -/
  | lineComment
  /-- In a comment that ends with a mark. -/
  | blockComment

/-- A text without its comments. The flag says that only blanks stand before on the line; there an
arrow starts a comment too. -/
def stripComments : Region → Bool → List Char → Option (List Char)
  | .blockComment, _, [] => none
  | _, _, [] => some []
  | .code, _, '/' :: '/' :: cs => stripComments .lineComment false cs
  | .code, _, '<' :: '!' :: '-' :: '-' :: cs => stripComments .lineComment false cs
  | .code, true, '-' :: '-' :: '>' :: cs => stripComments .lineComment false cs
  | .code, start, '/' :: '*' :: cs => (' ' :: ·) <$> stripComments .blockComment start cs
  | .code, start, c :: cs =>
    (c :: ·) <$> stripComments .code (isLineBreak c || (start && isBlank c)) cs
  | .lineComment, _, c :: cs =>
    if isLineBreak c then ('\n' :: ·) <$> stripComments .code true cs
    else stripComments .lineComment false cs
  | .blockComment, start, '*' :: '/' :: cs => stripComments .code start cs
  | .blockComment, start, c :: cs =>
    if isLineBreak c then ('\n' :: ·) <$> stripComments .blockComment true cs
    else stripComments .blockComment start cs

/-- The lines of a text. Every line break ends one. -/
def codeLines (cs : List Char) : List (List Char) :=
  splitOn '\n' (cs.map fun c => if isLineBreak c then '\n' else c)

/-- The numbers of tokens that are left where a line starts. -/
def lineStarts : List (List Token) → List Nat
  | [] => []
  | line :: rest => (line :: rest).flatten.length :: lineStarts rest

/-- Whether a statement can end before the tokens that are left. -/
def endsStatement (starts : List Nat) (rest : List Token) : Bool :=
  match rest with
  | [] | .mark .semicolon :: _ => true
  | rest => starts.contains rest.length

/-- Expressions separated by commas. -/
def readSequence : Nat → List Token → Option (List Expression × List Token)
  | 0, _ => none
  | fuel + 1, ts => do
    let (e, ts) ← Expression.read? ts
    match ts with
    | .mark .comma :: ts => do
      let (es, ts) ← readSequence fuel ts
      return (e :: es, ts)
    | ts => return ([e], ts)

/-- A statement that evaluates expressions, the last one by a statement of its own. -/
def sequenceStatements (last : Expression → Stmt Expression) : List Expression →
    List (Stmt Expression)
  | [] => []
  | [e] => [last e]
  | e :: es => .run e :: sequenceStatements last es

/-- The statements that tokens spell. -/
def readCode (starts : List Nat) : Nat → List Token → Option (List (Stmt Expression))
  | _, [] => some []
  | 0, _ => none
  | fuel + 1, .mark .semicolon :: ts => readCode starts fuel ts
  | fuel + 1, .name "return" :: ts =>
    if endsStatement starts ts then (.ret .undefined :: ·) <$> readCode starts fuel ts
    else do
      let (es, rest) ← readSequence fuel ts
      if endsStatement starts rest then
        (sequenceStatements .ret es ++ ·) <$> readCode starts fuel rest
      else none
  | fuel + 1, .name n :: .mark .colon :: ts =>
    if reservedWords.contains n || ts.isEmpty then none else readCode starts fuel ts
  | fuel + 1, ts => do
    let (es, rest) ← readSequence fuel ts
    if endsStatement starts rest then
      (sequenceStatements .run es ++ ·) <$> readCode starts fuel rest
    else none

/-- The statements of a text. -/
def codeStatements? (cs : List Char) : Option (List (Stmt Expression)) := do
  let code ← stripComments .code true cs
  let lines ← (codeLines code).mapM tokens?
  readCode (lineStarts lines) (cs.length + 1) lines.flatten

/-- A comment, and the code that follows its first line. -/
def readComment (t : String) : Except Error (List (Stmt Expression)) :=
  match t.toList.dropWhile fun c => !isLineBreak c with
  | [] => .ok [.comment t]
  | _ :: code => do
    let ss ← orMalformed (codeStatements? code)
    return .comment (String.ofList (t.toList.takeWhile fun c => !isLineBreak c)) :: ss

/-! ## Statements -/

/-- The expression of a text. -/
def readText (text : String) : Except Error Expression :=
  orMalformed (Expression.parse? text)

/-- The value of a return statement. What stands on a later line is not returned. -/
def readReturn (text : String) : Except Error Expression :=
  let blanks := text.toList.takeWhile isBlank
  if blanks.length == text.toList.length then .ok .undefined
  else do
    let e ← readText text
    return if blanks.any isLineBreak then .undefined else e

/-- The names that statements declare in their own block. -/
def declared : List (Stmt ε) → List String
  | [] => []
  | .value n _ :: ss | .index n _ :: ss => n :: declared ss
  | .previous p :: ss => p.name :: declared ss
  | _ :: ss => declared ss

/-- Fail unless a condition holds. -/
def require (b : Bool) : Except Error Unit :=
  if b then .ok () else .error malformed

/-- Whether names can be parameters together. -/
def canBeParams (params : List String) : Bool :=
  params.Nodup && params.all fun n => !reservedWords.contains n

/-- Whether names can be declared in one block. -/
def canDeclare (names : List String) : Bool :=
  canBeParams names && !names.contains "let"

/-- Whether the block of a function with parameters can declare names. -/
def canDeclareUnder (params names : List String) : Bool :=
  canBeParams params && canDeclare names && names.all fun n => !params.contains n

mutual

/-- A statement with its texts parsed. -/
def readStmt : Stmt String → Except Error (List (Stmt Expression))
  | .comment t => readComment t
  | .blank => .ok [.blank]
  | .run e => do
    let e ← readText e
    return [.run e]
  | .value n v => do
    let v ← readText v
    return [.value n v]
  | .index n v => do
    let v ← readText v
    return [.index n v]
  | .ret v => do
    let v ← readReturn v
    return [.ret v]
  | .retIf c v => do
    let c ← readText c
    let v ← readReturn v
    return [.retIf c v]
  | .write s v => do
    let s ← readText s
    let v ← readText v
    return [.write s v]
  | .previous p => do
    let args ← p.args.mapM readText
    return [.previous { name := p.name, layer := p.layer, args, vars := p.vars, extra := p.extra }]
  | .when c body => do
    let c ← readText c
    require (canDeclare (declared body))
    let body ← readStmts body
    return [.when c body]
  | .loop n start body => do
    require (canDeclare [n])
    require (canDeclare (declared body))
    let body ← readStmts body
    return [.loop n start body]
  | .block body => do
    require (canDeclare (declared body))
    let body ← readStmts body
    return [.block body]

/-- Statements with their texts parsed. -/
def readStmts : List (Stmt String) → Except Error (List (Stmt Expression))
  | [] => .ok []
  | s :: ss => do
    let s ← readStmt s
    let ss ← readStmts ss
    return s ++ ss

end

/-! ## Functions and families -/

/-- A function with its texts parsed. -/
def readFunction (f : Function String) : Except Error (Function Expression) := do
  require (canDeclareUnder f.params (declared f.body))
  let body ← readStmts f.body
  return ⟨f.name, f.params, body⟩

/-- The parameters of a function that computes a layer. -/
def Family.fillParams (f : Family ε) : List String :=
  f.layerIndices ++ ["out"] ++ f.vars

/-- The names that a case declares: the number of its slots, if it has statements, and theirs. -/
def LayerCase.declared (c : LayerCase ε) : List String :=
  if c.body.isEmpty then [] else "N_VALUES" :: Script.declared c.body

/-- A case of a family of layers with its texts parsed. -/
def readCase (f : Family String) (c : LayerCase String) : Except Error (LayerCase Expression) := do
  require (canDeclareUnder f.fillParams c.declared)
  let guard ← readText c.guard
  let size ← readText c.size
  let body ← readStmts c.body
  return ⟨c.label, guard, size, body⟩

/-- What a module holds with its texts parsed. -/
def readContent : Content String → Except Error (Content Expression)
  | .functions fs => .functions <$> fs.mapM readFunction
  | .family f => do
    require (canBeParams f.fillParams)
    require (canDeclareUnder (f.indices ++ f.vars) ["size", "out"])
    let cases ← f.cases.mapM (readCase f)
    return .family { f with cases }

end RecurrenceCompiler.Script
