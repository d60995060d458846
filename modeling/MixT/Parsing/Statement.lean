import MixT.Parsing.Expression

/-!
# The statement parser

The kind of a statement is found by searching its text outside parentheses, in
a fixed order: first for the words that bind a variable, then for a comma, then
for the letters of `return`, `while` and `if` anywhere, then for an equals
sign. Braces group a statement and leave no node.

-/

namespace MixT.Parsing

/-- Parsed statements, with the operators of type `O`. -/
inductive Stmt (O : Type)
  | letIn (var : Text) (rhs : Expr O) (Body : Stmt O)
  | letRemote (var : Text) (rhs : Expr O) (Body : Stmt O)
  | assignment (Var rhs : Expr O)
  | ret (e : Expr O)
  | ifThen (condition : Expr O) (thn els : Stmt O)
  | whileLoop (condition : Expr O) (body : Stmt O)
  | operation (name : Text) (Hndl : Expr O) (args : List (Expr O))
  | sequence (e next : Stmt O)
  | skip

namespace Stmt

variable {O P : Type}

def map (f : O → P) : Stmt O → Stmt P
  | letIn x e s => letIn x (e.map f) (s.map f)
  | letRemote x e s => letRemote x (e.map f) (s.map f)
  | assignment x e => assignment (x.map f) (e.map f)
  | ret e => ret (e.map f)
  | ifThen c t e => ifThen (c.map f) (t.map f) (e.map f)
  | whileLoop c b => whileLoop (c.map f) (b.map f)
  | operation name h args => operation name (h.map f) (args.map (Expr.map f))
  | sequence e next => sequence (e.map f) (next.map f)
  | skip => skip

section Map

variable (f : O → P) (x : Text) (e e' : Expr O) (s t : Stmt O)

theorem map_letIn : (letIn x e s).map f = letIn x (e.map f) (s.map f) := rfl
theorem map_letRemote : (letRemote x e s).map f = letRemote x (e.map f) (s.map f) := rfl
theorem map_assignment : (assignment e e').map f = assignment (e.map f) (e'.map f) := rfl
theorem map_ret : (ret e).map f = ret (e.map f) := rfl
theorem map_ifThen : (ifThen e s t).map f = ifThen (e.map f) (s.map f) (t.map f) := rfl
theorem map_whileLoop : (whileLoop e s).map f = whileLoop (e.map f) (s.map f) := rfl
theorem map_operation (args : List (Expr O)) :
    (operation x e args).map f = operation x (e.map f) (args.map (Expr.map f)) := rfl
theorem map_sequence : (sequence s t).map f = sequence (s.map f) (t.map f) := rfl
theorem map_skip : (skip : Stmt O).map f = skip := rfl

end Map

/-- The elements that the allocator hands out for the tree. A binding takes one of its
own. -/
def elements : Stmt O → ℕ
  | letIn _ e s | letRemote _ e s => e.elements + s.elements + 2
  | assignment x e => x.elements + e.elements + 1
  | ret e => e.elements + 1
  | ifThen c t e => c.elements + t.elements + e.elements + 1
  | whileLoop c b => c.elements + b.elements + 1
  | operation _ h args => h.elements + Expr.elementsAll args + 3
  | sequence e next => e.elements + next.elements + 1
  | skip => 1

end Stmt

def varWord : Text := ['v', 'a', 'r']
def remoteWord : Text := ['r', 'e', 'm', 'o', 't', 'e']
def returnWord : Text := ['r', 'e', 't', 'u', 'r', 'n']
def whileWord : Text := ['w', 'h', 'i', 'l', 'e']
def ifWord : Text := ['i', 'f']
def elseWord : Text := ['e', 'l', 's', 'e']

section Cases

variable (H : StringHelpers) (parseExpression : Text → Except ParseError (Expr Char))
  (parse : Text → Except ParseError (Stmt Char))

def parseBinding (str : Text) : Except ParseError (Text × Expr Char) := do
  let components := H.firstSplit '=' str
  let var ← store (H.trim components.1)
  let rhs ← parseExpression components.2
  return (var, rhs)

def parseVar (str : Text) : Except ParseError (Stmt Char) := do
  let components := H.firstSplit ',' (H.removeFirstWord str)
  let binding ← parseBinding H parseExpression components.1
  let Body ← parse components.2
  return .letIn binding.1 binding.2 Body

def parseRemote (str : Text) : Except ParseError (Stmt Char) := do
  let components := H.firstSplit ',' (H.removeFirstWord str)
  let binding ← parseBinding H parseExpression components.1
  let Body ← parse components.2
  return .letRemote binding.1 binding.2 Body

def parseReturn (str : Text) : Except ParseError (Stmt Char) := do
  return .ret (← parseExpression (H.removeFirstWord str))

def parseWhile (str : Text) : Except ParseError (Stmt Char) := do
  let condition := H.nextParenGroup (H.removeFirstWord str)
  let body := H.copyWithinParens condition.2
  let c ← parseExpression condition.1
  let b ← parse body
  return .whileLoop c b

def parseIf (str : Text) : Except ParseError (Stmt Char) := do
  let condition := H.nextParenGroup str
  let thn := H.nextParenGroup condition.2
  let c ← parseExpression condition.1
  let t ← parse thn.1
  if H.firstWordIs elseWord thn.2 then
    let e ← parse (H.nextParenGroup thn.2).1
    return .ifThen c t e
  else return .ifThen c t .skip

def parseAssignment (str : Text) : Except ParseError (Stmt Char) :=
  match H.splitOutsideParens '=' 2 str with
  | some bufs => do
    let Var ← parseExpression (bufs.getD 0 [])
    let rhs ← parseExpression (bufs.getD 1 [])
    return .assignment Var rhs
  | none => .error .notConstant

def parseSequence (str : Text) : Except ParseError (Stmt Char) := do
  let bufs := H.firstSplit ',' str
  let e ← parse bufs.1
  let next ← parse bufs.2
  return .sequence e next

def parseStmtOperation (str : Text) : Except ParseError (Stmt Char) := do
  let call ← parseOperation H parseExpression str
  return .operation call.name call.Hndl call.args

end Cases

variable (H : StringHelpers)

/-- `fuel` bounds the depth of the recursion, through statements and expressions. -/
def parseStatement : ℕ → Text → Except ParseError (Stmt Char)
  | 0, _ => .error .notConstant
  | fuel + 1, str =>
    let expression := parseExpression H fuel
    let statement := parseStatement fuel
    if H.firstWordIs varWord str then parseVar H expression statement str
    else if H.firstWordIs remoteWord str then parseRemote H expression statement str
    else if H.containsOutsideParens [','] str then parseSequence H statement str
    else if H.containsOutsideParens returnWord str then parseReturn H expression str
    else if H.containsOutsideParens whileWord str then parseWhile H expression statement str
    else if H.containsOutsideParens ifWord str then parseIf H expression statement str
    else if H.containsOutsideParens ['='] str then parseAssignment H expression str
    else if H.firstWordIs ['{'] str then statement (H.copyWithinParens str)
    else if H.containsParen str then parseStmtOperation H expression str
    else if H.trim str = [] then .ok .skip
    else .error (.noStatement str)

/-- The tree of a whole transaction. The allocator of the parser has 400 elements. -/
def parseTransaction (str : Text) : Except ParseError (Stmt Char) :=
  if H.contains ';' str then .error .semicolons
  else do
    let s ← parseStatement H (str.length + 1) str
    if s.elements ≤ 400 then return s else throw .notConstant

end MixT.Parsing
