import MixT.Parsing.Helpers

/-!
# The expression parser

The parser recognises the kind of an expression by an ordered chain of searches
for substrings outside parentheses. A binary operator is split at its last
occurrence, and the parsed tree keeps the first character of the symbol that
was searched for. Names go to arrays of twenty characters, and an expression
whose evaluation by the compiler would leave an array has no tree.

-/

namespace MixT.Parsing

/-- Parsed expressions, with the operators of type `O`. -/
inductive Expr (O : Type)
  | varReference (Var : Text)
  | fieldReference (Struct : Expr O) (Field : Text)
  | fieldPointerReference (Struct : Expr O) (Field : Text)
  | dereference (Struct : Expr O)
  | constant (i : ℕ)
  | binOp (op : O) (L R : Expr O)
  | isValid (Hndl : Expr O)
  | endorse (label : Text) (Hndl : Expr O)
  | ensure (label : Text) (Hndl : Expr O)
  | operation (name : Text) (Hndl : Expr O) (args : List (Expr O))

namespace Expr

variable {O P : Type}

mutual

/-- The same tree with other operators. -/
def map (f : O → P) : Expr O → Expr P
  | varReference x => varReference x
  | fieldReference e f' => fieldReference (e.map f) f'
  | fieldPointerReference e f' => fieldPointerReference (e.map f) f'
  | dereference e => dereference (e.map f)
  | constant i => constant i
  | binOp o l r => binOp (f o) (l.map f) (r.map f)
  | isValid h => isValid (h.map f)
  | endorse label h => endorse label (h.map f)
  | ensure label h => ensure label (h.map f)
  | operation name h args => operation name (h.map f) (mapAll f args)

def mapAll (f : O → P) : List (Expr O) → List (Expr P)
  | [] => []
  | e :: es => e.map f :: mapAll f es

end

mutual

/-- The elements that the allocator hands out for the tree. An operation takes one for
each of its two argument lists. -/
def elements : Expr O → ℕ
  | varReference _ | constant _ => 1
  | fieldReference e _ | fieldPointerReference e _ | dereference e => e.elements + 1
  | binOp _ l r => l.elements + r.elements + 1
  | isValid h | endorse _ h | ensure _ h => h.elements + 1
  | operation _ h args => h.elements + elementsAll args + 3

def elementsAll : List (Expr O) → ℕ
  | [] => 0
  | e :: es => e.elements + elementsAll es

end

end Expr

/-- Why a text has no tree. -/
inductive ParseError
  /-- "We thought this was a ..., but it contains parens" -/
  | parens (thought : Text)
  /-- "We thought this was a ..., but it contains whitespace" -/
  | whitespace (thought : Text)
  /-- "This should be a ..., but it contains a ..., which is not allowed" -/
  | notAllowed (thought target : Text)
  /-- "internal parse error: * started a string, but wasn't in the string somehow." -/
  | star
  /-- "Could not find Statement to match input of ..." -/
  | noStatement (str : Text)
  /-- "Semicolons have no place here. Did you mean ','?" -/
  | semicolons
  /-- The compiler's evaluation leaves an array, the allocator or the recursion depth. -/
  | notConstant
  deriving DecidableEq

def maxVarLength : ℕ := 20

/-- Copies a name into its array. -/
def store (s : Text) : Except ParseError Text :=
  if s.length < maxVarLength then .ok s else .error .notConstant

/-- The symbols of the binary operators, in the order in which they are searched. -/
def binopSymbols : List Text :=
  [['+'], ['-', ' '], ['*', ' '], ['/'], ['=', '='], ['&', '&'], ['|', '|'], ['!', '='],
    ['>', ' '], ['<'], ['>', '='], ['<', '=']]

inductive BuiltinOp
  | isValid
  | endorse
  | ensure
  deriving DecidableEq

def BuiltinOp.name : BuiltinOp → Text
  | isValid => ['i', 's', 'V', 'a', 'l', 'i', 'd']
  | endorse => ['e', 'n', 'd', 'o', 'r', 's', 'e']
  | ensure => ['e', 'n', 's', 'u', 'r', 'e']

/-- The builtin operations, in the order in which they are searched. -/
def builtinOps : List BuiltinOp := [.isValid, .endorse, .ensure]

def defaultList : Text := ['d', 'e', 'f', 'a', 'u', 'l', 't', ' ', 'l', 'i', 's', 't']

section Cases

variable (H : StringHelpers) (parse : Text → Except ParseError (Expr Char))

def parseBinop (str cause : Text) : Except ParseError (Expr Char) := do
  let operands := H.lastSplit cause str
  let L ← parse operands.1
  let R ← parse operands.2
  return .binOp (cause.headD ' ') L R

def parseBuiltinOp (str : Text) (op : BuiltinOp) : Except ParseError (Expr Char) := do
  let split := H.lastSplit ['.'] (H.trim str)
  let args := H.copyWithinParens split.2
  let Hndl ← parse split.1
  match op with
  | .endorse => return .endorse (← store (H.trim args)) Hndl
  | .ensure => return .ensure (← store (H.trim args)) Hndl
  | .isValid => return .isValid Hndl

/-- The arguments that are set. An empty piece sets none. -/
def parseArgs (str : Text) : Except ParseError (List (Expr Char)) :=
  match H.splitOutsideParens ',' maxVarLength str with
  | some exprs => (exprs.filter (· ≠ [])).mapM parse
  | none => .error .notConstant

structure OperationCall (O : Type) where
  name : Text
  args : List (Expr O)
  Hndl : Expr O

def parseOperation (str : Text) : Except ParseError (OperationCall Char) := do
  let splits := H.lastSplit ['.'] str
  let name ← store (H.preParen splits.2)
  let args ← parseArgs H parse (H.nextParenGroup splits.2).1
  let Hndl ← parse splits.1
  return ⟨name, args, Hndl⟩

def parseExprOperation (str : Text) : Except ParseError (Expr Char) := do
  let call ← parseOperation H parse str
  return .operation call.name call.Hndl call.args

/-- The checks on a text that is taken for a name. -/
def errorCheck (thought str : Text) (lookFor : List Text) : Except ParseError Unit :=
  if H.containsParen str then .error (.parens thought)
  else if H.containsSpace str then .error (.whitespace thought)
  else match lookFor.find? fun target => H.containsOutsideParens target str with
    | some target => .error (.notAllowed thought target)
    | none => .ok ()

def nameTargets : List Text := [['.'], ['-', '>'], ['*'], [' ']]

def parseFieldref (str : Text) : Except ParseError (Expr Char) := do
  let operands := H.lastSplit ['.'] (H.trim str)
  errorCheck H ['f', 'i', 'e', 'l', 'd', 'r', 'e', 'f'] operands.2 nameTargets
  let Struct ← parse operands.1
  return .fieldReference Struct (← store (H.trim operands.2))

def parseFieldptrref (str : Text) : Except ParseError (Expr Char) := do
  let operands := H.lastSplit ['-', '>'] (H.trim str)
  errorCheck H ['f', 'i', 'e', 'l', 'd', 'p', 't', 'r', 'r', 'e', 'f'] operands.2 nameTargets
  let Struct ← parse operands.1
  return .fieldPointerReference Struct (← store (H.trim operands.2))

def parseDeref (str : Text) : Except ParseError (Expr Char) := do
  return .dereference (← parse ((H.trim str).drop 1))

def parseConstant (str : Text) : Except ParseError (Expr Char) :=
  .ok (.constant (H.parseInt str))

def parseVarref (str : Text) : Except ParseError (Expr Char) := do
  let Var ← store (H.trim str)
  errorCheck H
    ['v', 'a', 'r', 'i', 'a', 'b', 'l', 'e', ' ', 'a', 'c', 'c', 'e', 's', 's'] Var nameTargets
  return .varReference Var

/-- What is behind the last dot decides between the forms that have one. -/
def parseDotted (str : Text) : Except ParseError (Expr Char) :=
  let right := H.trim (H.lastSplit ['.'] str).2
  if H.containsOutsideParens ['-', '>'] right then parseFieldptrref H parse str
  else match builtinOps.find? fun op => H.containsOutsideParens (op.name ++ ['(']) right with
    | some op => parseBuiltinOp H parse str op
    | none =>
      if H.containsParen right then parseExprOperation H parse str
      else parseFieldref H parse str

end Cases

variable (H : StringHelpers)

/-- `fuel` bounds the depth of the recursion. -/
def parseExpression : ℕ → Text → Except ParseError (Expr Char)
  | 0, _ => .error .notConstant
  | fuel + 1, _str =>
    let str := H.trim _str
    if str = defaultList then do return .varReference (← store (H.trim str))
    else match binopSymbols.find? fun cause => H.containsOutsideParens cause str with
      | some cause => parseBinop H (parseExpression fuel) str cause
      | none =>
        if H.prefixEqual ['*'] str then
          if H.containsOutsideParens ['*'] str then parseDeref H (parseExpression fuel) str
          else .error .star
        else if H.containsOutsideParens ['.'] str then parseDotted H (parseExpression fuel) str
        else if H.containsOutsideParens ['-', '>'] str then
          parseFieldptrref H (parseExpression fuel) str
        else if str.head? = some '(' ∧ str.getLast? = some ')' then
          parseExpression fuel (H.nextParenGroup str).1
        else
          let atom := H.trim str
          if (atom.headD ' ').isDigit then parseConstant H atom else parseVarref H atom

/-- The tree of a text, in an allocator with `free` free elements. Every piece that is
parsed is shorter than the text it comes from. -/
def parseExpressionText (free : ℕ) (str : Text) : Except ParseError (Expr Char) := do
  let e ← parseExpression H (str.length + 1) str
  if e.elements ≤ free then return e else throw .notConstant

end MixT.Parsing
