import MixT.Syntax.Ast

/-!
# Flattening

The pass takes one layer at a time from the expressions of a statement and binds it to
a variable named by two counters, one for the position in a sequence and one for the
depth. The counters are of type `char`: a program that counts further does not compile.
-/

namespace MixT.Flatten

abbrev Name := List Char

/-- An expression of the parse tree. The arguments of an operation are those yet to be
flattened, and the variables that took the place of others. -/
inductive Expr
  | varReference (Var : Name)
  | fieldReference (Struct : Expr) (Field : Name)
  | fieldPointerReference (Struct : Expr) (Field : Name)
  | dereference (Struct : Expr)
  | constant (i : Int)
  | binOp (op : BinOperator) (L R : Expr)
  | isValid (Hndl : Expr)
  | endorse (label : Name) (Hndl : Expr)
  | ensure (label : Name) (Hndl : Expr)
  | operation (name : Name) (Hndl : Expr) (exprs : List Expr) (vars : List Name)

/-- A statement of the parse tree. A sequence is a chain of `cons` that ends in `nil`. -/
inductive Stmt
  | letIn (x : Name) (e : Expr) (body : Stmt)
  | letRemote (x : Name) (e : Expr) (body : Stmt)
  | assignment (Var rhs : Expr)
  | operation (name : Name) (Hndl : Expr) (exprs : List Expr) (vars : List Name)
  | ret (e : Expr)
  | ifThen (condition : Expr) (thn els : Stmt)
  | whileLoop (condition : Expr) (body : Stmt)
  | nil
  | cons (first rest : Stmt)

/-- The last value of a counter. -/
def charLimit : ℕ := 127

/-- `generate_name`. -/
def generateName (seqnum depth : ℕ) : Name :=
  ['a', 'n', 'o', 'r', 'm', Char.ofNat seqnum, Char.ofNat depth]

def remoteName (seqnum depth : ℕ) : Name :=
  ['r', 'e', 'm', 'o', 't', 'e', '_', 'b', 'o', 'u', 'n', 'd', '_', 't', 'm', 'p', Char.ofNat 0,
    Char.ofNat seqnum, Char.ofNat depth]

/-- `condition_name`. -/
def whileName (seqnum depth : ℕ) : Name :=
  ['w', 'h', 'i', 'l', 'e', Char.ofNat seqnum, Char.ofNat depth]

def trueName : Name := ['t', 'r', 'u', 'e']

def falseName : Name := ['f', 'a', 'l', 's', 'e']

namespace Expr

/-- `is_var_reference`. -/
def isVarReference : Expr → Bool
  | varReference _ => true
  | _ => false

/-- The expressions a `let` keeps as they are. -/
def isFlat : Expr → Bool
  | varReference _ => true
  | constant _ => true
  | binOp _ (varReference _) (varReference _) => true
  | fieldReference (varReference _) _ => true
  | fieldReference (constant _) _ => true
  | isValid (varReference _) => true
  | endorse _ (varReference _) => true
  | ensure _ (varReference _) => true
  | operation _ (varReference _) [] _ => true
  | _ => false

/-- `contains_fieldpointer_ref`, which has no definition for other expressions. -/
def containsFieldpointerRef : Expr → Option Bool
  | varReference _ => some false
  | fieldReference (dereference _) _ => some true
  | fieldReference e _ => e.containsFieldpointerRef
  | fieldPointerReference _ _ => some true
  | _ => none

end Expr

section RemoveLayer

variable (seqnum depth : ℕ)

/-- A dereference of a variable becomes a remote binding, another one loses a layer of what it
dereferences. -/
def removeDereference (subStatement : Expr → Stmt) (e : Expr)
    (removeLayer : (Expr → Stmt) → Option Stmt) : Option Stmt :=
  match e with
  | .varReference x =>
      some (.letRemote (remoteName seqnum depth) (.varReference x)
        (subStatement (.varReference (remoteName seqnum depth))))
  | _ => removeLayer fun e => subStatement (.dereference e)

/-- An expression over variables is bound to a new variable. -/
def bindLayer (subStatement : Expr → Stmt) (e : Expr) : Option Stmt :=
  some (.letIn (generateName seqnum depth) e
    (subStatement (.varReference (generateName seqnum depth))))

mutual

/-- `remove_layer`: the statement binds the innermost layer of the expression, and what is left of
the expression stands where it stood. A variable has no layer to remove. -/
def removeLayer (subStatement : Expr → Stmt) : Expr → Option Stmt
  | .varReference _ => none
  | .constant i => bindLayer seqnum depth subStatement (.constant i)
  | .fieldReference e f =>
      if e.isVarReference then bindLayer seqnum depth subStatement (.fieldReference e f)
      else removeLayer (fun e => subStatement (.fieldReference e f)) e
  | .fieldPointerReference e f =>
      removeDereference seqnum depth (fun e => subStatement (.fieldReference e f)) e
        fun sub => removeLayer sub e
  | .dereference e => removeDereference seqnum depth subStatement e fun sub => removeLayer sub e
  | .binOp op l r =>
      if l.isVarReference then
        if r.isVarReference then bindLayer seqnum depth subStatement (.binOp op l r)
        else removeLayer (fun r => subStatement (.binOp op l r)) r
      else removeLayer (fun l => subStatement (.binOp op l r)) l
  | .isValid e =>
      if e.isVarReference then bindLayer seqnum depth subStatement (.isValid e)
      else removeLayer (fun e => subStatement (.isValid e)) e
  | .endorse l e =>
      if e.isVarReference then bindLayer seqnum depth subStatement (.endorse l e)
      else removeLayer (fun e => subStatement (.endorse l e)) e
  | .ensure l e =>
      if e.isVarReference then bindLayer seqnum depth subStatement (.ensure l e)
      else removeLayer (fun e => subStatement (.ensure l e)) e
  | .operation name h exprs vars =>
      if h.isVarReference then removeArgument subStatement name h exprs vars
      else removeLayer (fun h => subStatement (.operation name h exprs vars)) h

/-- Variables among the arguments move over until one is another expression. -/
def removeArgument (subStatement : Expr → Stmt) (name : Name) (h : Expr) :
    List Expr → List Name → Option Stmt
  | [], vars => bindLayer seqnum depth subStatement (.operation name h [] vars)
  | .varReference x :: exprs, vars => removeArgument subStatement name h exprs (vars ++ [x])
  | e :: exprs, vars =>
      removeLayer (fun e => subStatement (.operation name h (e :: exprs) vars)) e

end

end RemoveLayer

/-- `operation_to_statement`: the last binding, of the operation, becomes a statement. -/
def operationToStatement : Stmt → Option Stmt
  | .letIn _ (.operation name h exprs vars) (.ret (.varReference _)) =>
      some (.operation name h exprs vars)
  | .letIn x e (.letIn y e' body) =>
      (operationToStatement (.letIn y e' body)).map (.letIn x e)
  | .letIn x e (.letRemote y e' body) =>
      (operationToStatement (.letRemote y e' body)).map (.letIn x e)
  | .letRemote x e (.letIn y e' body) =>
      (operationToStatement (.letIn y e' body)).map (.letRemote x e)
  | .letRemote x e (.letRemote y e' body) =>
      (operationToStatement (.letRemote y e' body)).map (.letRemote x e)
  | _ => none

/-- `flatten_exprs`, with `none` for a program that does not compile. -/
def flattenExprs (seqnum depth : ℕ) : Stmt → Option Stmt
  | .letIn x e body =>
      if depth < charLimit then
        if e.isFlat then (flattenExprs seqnum (depth + 1) body).map (.letIn x e)
        else (removeLayer seqnum depth (fun e => .letIn x e body) e).bind fun peeled =>
          flattenExprs seqnum (depth + 1) peeled
      else none
  | .letRemote x e body =>
      if depth < charLimit then
        if e.isVarReference then (flattenExprs seqnum (depth + 1) body).map (.letRemote x e)
        else (removeLayer seqnum depth (fun e => .letRemote x e body) e).bind fun peeled =>
          flattenExprs seqnum (depth + 1) peeled
      else none
  | .assignment var e =>
      if e.isVarReference then
        match var.containsFieldpointerRef with
        | some false => some (.assignment var e)
        | some true =>
            if depth < charLimit then
              (removeLayer seqnum depth (fun var => .assignment var e) var).bind fun peeled =>
                flattenExprs seqnum (depth + 1) peeled
            else none
        | none => none
      else if depth < charLimit then
        (removeLayer seqnum depth (fun e => .assignment var e) e).bind fun peeled =>
          flattenExprs seqnum (depth + 1) peeled
      else none
  | .operation name h exprs vars =>
      if h.isVarReference ∧ exprs = [] then some (.operation name h exprs vars)
      else if seqnum < charLimit then
        (removeLayer seqnum depth .ret (.operation name h exprs vars)).bind fun peeled =>
          (flattenExprs (seqnum + 1) depth peeled).bind operationToStatement
      else none
  | .ret e =>
      if e.isVarReference then some (.ret e)
      else if depth < charLimit then
        (removeLayer seqnum depth .ret e).bind fun peeled =>
          flattenExprs seqnum (depth + 1) peeled
      else none
  | .ifThen c thn els =>
      if depth < charLimit then
        if c.isVarReference then
          if seqnum < charLimit then
            (flattenExprs seqnum (depth + 1) thn).bind fun thn =>
              (flattenExprs (seqnum + 1) (depth + 1) els).map (.ifThen c thn)
          else none
        else (removeLayer seqnum depth (fun c => .ifThen c thn els) c).bind fun peeled =>
          flattenExprs seqnum (depth + 1) peeled
      else none
  | .whileLoop c body =>
      if depth < charLimit then
        if c.isVarReference then (flattenExprs seqnum (depth + 1) body).map (.whileLoop c)
        else (removeLayer seqnum depth (fun c => .whileLoop c body) c).bind fun peeled =>
          flattenExprs seqnum (depth + 1) peeled
      else none
  | .nil => some .nil
  | .cons first rest =>
      if seqnum < charLimit then
        (flattenExprs seqnum depth first).bind fun first =>
          (flattenExprs (seqnum + 1) depth rest).map (.cons first)
      else none
termination_by st => (charLimit - seqnum + (charLimit - depth), sizeOf st)

/-- `desugar_while`: a loop becomes a loop over a flag that its body clears. -/
def desugarWhile (seqnum depth : ℕ) : Stmt → Option Stmt
  | .letIn x e body =>
      if depth < charLimit then (desugarWhile seqnum (depth + 1) body).map (.letIn x e) else none
  | .letRemote x e body =>
      if depth < charLimit then (desugarWhile seqnum (depth + 1) body).map (.letRemote x e)
      else none
  | .assignment var e => some (.assignment var e)
  | .operation name h exprs vars => some (.operation name h exprs vars)
  | .ret e => some (.ret e)
  | .ifThen c thn els =>
      if depth < charLimit ∧ seqnum < charLimit then
        (desugarWhile seqnum (depth + 1) thn).bind fun thn =>
          (desugarWhile (seqnum + 1) (depth + 1) els).map (.ifThen c thn)
      else none
  | .whileLoop c body =>
      if depth < charLimit then
        (desugarWhile seqnum (depth + 1) body).map fun body =>
          .letIn (whileName seqnum depth) (.varReference trueName)
            (.whileLoop (.varReference (whileName seqnum depth))
              (.ifThen c body
                (.assignment (.varReference (whileName seqnum depth)) (.varReference falseName))))
      else none
  | .nil => some .nil
  | .cons first rest =>
      if seqnum < charLimit then
        (desugarWhile seqnum depth first).bind fun first =>
          (desugarWhile (seqnum + 1) depth rest).map (.cons first)
      else none

/-- `flatten_expressions`. -/
def flattenExpressions (st : Stmt) : Option Stmt :=
  (desugarWhile 1 1 st).bind (flattenExprs 1 1)

end MixT.Flatten
