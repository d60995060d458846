import MixT.Library.Passes
import MixT.Phase.Run
import MixT.Flatten.UniqueNames

/-! # What a program means

A parse tree means a run over its variables and over the stores. An operand is a variable, whose
value is read where it is used, or it is a cell that has no name: a value, or a handle whose object
was fetched. The objects that were fetched are remembered, once for all that refer to them. -/

namespace MixT.Flatten

open Library Library.Eff
open Phase (Host Backend Act Signal)

/-- The variable of an empty list. -/
def listName : Name := ['d', 'e', 'f', 'a', 'u', 'l', 't', ' ', 'l', 'i', 's', 't']

/-- What programs run on: the values of the host language, its stores, and which object a handle
refers to. -/
structure Machine (V K F Sh : Type) where
  host : Host V F
  backend : Backend V F Sh
  key : V → K

/-- What a variable or an operand stands for: a value, or the object of a handle. -/
inductive Cell (V : Type)
  | value (v : V)
  | remote (h : V)

inductive Operand (V : Type)
  | var (x : Name)
  | cell (c : Cell V)

abbrev Cells (V : Type) := Name → Cell V

/-- An action on the objects that were fetched and on the stores. -/
abbrev Eval (V K F Sh α : Type) := Eff F ((K → V) × Sh) α

/-- A statement acts on the variables too. -/
abbrev Run (V K F Sh α : Type) := Eff (Signal V F) (Cells V × (K → V) × Sh) α

namespace Machine

variable {V K F Sh : Type} [Inhabited V] [DecidableEq K] (M : Machine V K F Sh)

section Operands

def lift {α : Type} (a : Act F Sh α) : Eval V K F Sh α := reading id fun _ => a

/-- The object of a handle is fetched and remembered. -/
def fetch (h : V) : Eval V K F Sh (Cell V) := do
  let o ← lift (M.backend.get h)
  lift (M.backend.readTracking h)
  setFirst fun cache => Function.update cache (M.key h) o
  pure (.remote h)

/-- The object of a handle is written and remembered. -/
def write (h v : V) : Eval V K F Sh Unit := do
  lift (M.backend.put h v)
  setFirst fun cache => Function.update cache (M.key h) v

def readCell : Cell V → Eval V K F Sh V
  | .value v => pure v
  | .remote h => reading id fun cache => pure (cache (M.key h))

/-- The value of an operand. The constants are no variables, and each empty list is a new one. -/
def read (cells : Cells V) : Operand V → Eval V K F Sh V
  | .var x =>
      if x = trueName then pure (M.host.ofBool true)
      else if x = falseName then pure (M.host.ofBool false)
      else if x = listName then lift M.backend.listStub
      else M.readCell (cells x)
  | .cell c => M.readCell c

def readAll (cells : Cells V) : List (Operand V) → Eval V K F Sh (List V)
  | [] => pure []
  | o :: os => do
      let v ← M.read cells o
      let vs ← readAll cells os
      pure (v :: vs)

end Operands

section Expressions

/-- An operator. The right operand of `&&` and of `||` is evaluated where the left one requires it. -/
def binary (cells : Cells V) (op : BinOperator) (left right : Eval V K F Sh (Operand V)) :
    Eval V K F Sh V :=
  match op with
  | .and => do
      let l ← left
      let lval ← M.read cells l
      if M.host.truth lval then
        let r ← right
        let rval ← M.read cells r
        pure (M.host.ofBool (M.host.truth rval))
      else pure (M.host.ofBool false)
  | .or => do
      let l ← left
      let lval ← M.read cells l
      if M.host.truth lval then pure (M.host.ofBool true)
      else
        let r ← right
        let rval ← M.read cells r
        pure (M.host.ofBool (M.host.truth rval))
  | op => do
      let l ← left
      let r ← right
      let lval ← M.read cells l
      let rval ← M.read cells r
      Eff.ofExcept (M.host.binOp op lval rval)

/-- An operation on values. -/
def call (name : Name) (h : V) (vs : List V) : Act F Sh V :=
  if name = Builtin.pushBack then do
    M.backend.ensureList h
    M.backend.pushBack h (vs.headD default)
    pure default
  else if name = Builtin.nulled then pure (M.host.nulled h)
  else if name = Builtin.new then M.backend.createNew h (vs.headD default)
  else M.backend.act name h vs

/-- The object that a handle refers to. -/
def deref (cells : Cells V) (o : Operand V) : Eval V K F Sh (Cell V) := do
  let h ← M.read cells o
  M.fetch h

mutual

/-- What an expression stands for. -/
def eval (cells : Cells V) : Expr → Eval V K F Sh (Operand V)
  | .varReference x => pure (.var x)
  | .fieldReference e f => do
      let o ← eval cells e
      let s ← M.read cells o
      pure (.cell (.value (M.host.field s f)))
  | .fieldPointerReference e f => do
      let o ← eval cells e
      let c ← M.deref cells o
      let s ← M.readCell c
      pure (.cell (.value (M.host.field s f)))
  | .dereference e => do
      let o ← eval cells e
      let c ← M.deref cells o
      pure (.cell c)
  | .constant i => pure (.cell (.value (M.host.ofInt i)))
  | .binOp op l r => do
      let v ← M.binary cells op (eval cells l) (eval cells r)
      pure (.cell (.value v))
  | .isValid e => do
      let o ← eval cells e
      let h ← M.read cells o
      let v ← lift (M.backend.isValid h)
      pure (.cell (.value v))
  | .endorse _ e | .ensure _ e => do
      let o ← eval cells e
      let v ← M.read cells o
      pure (.cell (.value v))
  | .operation name h exprs vars => do
      let o ← eval cells h
      let os ← evalAll cells exprs
      let hndl ← M.read cells o
      let vs ← M.readAll cells (vars.map .var ++ os)
      let v ← lift (M.call name hndl vs)
      pure (.cell (.value v))

def evalAll (cells : Cells V) : List Expr → Eval V K F Sh (List (Operand V))
  | [] => pure []
  | e :: es => do
      let o ← eval cells e
      let os ← evalAll cells es
      pure (o :: os)

end

def evalTo (cells : Cells V) (e : Expr) : Eval V K F Sh V := do
  let o ← M.eval cells e
  M.read cells o

/-- What the target of an assignment stands for, with the fields below it. -/
def place (cells : Cells V) : Expr → Eval V K F Sh (Operand V × List Name)
  | .fieldReference e f => do
      let p ← place cells e
      pure (p.1, p.2 ++ [f])
  | .fieldPointerReference e f => do
      let o ← M.eval cells e
      let c ← M.deref cells o
      pure (.cell c, [f])
  | e => do
      let o ← M.eval cells e
      pure (o, [])

/-- A structure with another value in a field. -/
def setField (struct : V) : List Name → V → V
  | [], v => v
  | f :: fs, v => M.host.setField struct f (setField (M.host.field struct f) fs v)

/-- An operand gets a value: a variable is set, an object is written. -/
def setOperand (cells : Cells V) (o : Operand V) (v : V) : Eval V K F Sh (Cells V) :=
  match o with
  | .var x =>
      match cells x with
      | .value _ => pure (Function.update cells x (.value v))
      | .remote h => do
          M.write h v
          pure cells
  | .cell (.remote h) => do
      M.write h v
      pure cells
  | .cell (.value _) => pure cells

/-- An assignment to a place. The structure is read before the value. -/
def assign (cells : Cells V) (p : Operand V × List Name) (o : Operand V) :
    Eval V K F Sh (Cells V) :=
  match p.2 with
  | [] => do
      let v ← M.read cells o
      M.setOperand cells p.1 v
  | f :: fs => do
      let struct ← M.read cells p.1
      let v ← M.read cells o
      M.setOperand cells p.1 (M.setField struct (f :: fs) v)

end Expressions

section Statements

def act {α : Type} (a : Cells V → Eval V K F Sh α) : Run V K F Sh α := reading .fault a

def set (x : Name) (c : Cell V) : Run V K F Sh Unit :=
  setFirst fun cells => Function.update cells x c

/-- A loop, for at most `n` turns. -/
def turns (condition : Run V K F Sh Bool) (body : Run V K F Sh Unit) : ℕ → Run V K F Sh Unit
  | 0 => do
      let go ← condition
      if go then throw .outOfTurns else pure ()
  | n + 1 => do
      let go ← condition
      if go then
        body
        turns condition body n
      else pure ()

def condition (c : Expr) : Run V K F Sh Bool := do
  let v ← act fun cells => M.evalTo cells c
  pure (M.host.truth v)

/-- What a statement does, with at most `n` turns in each execution of a loop. -/
def run (n : ℕ) : Stmt → Run V K F Sh Unit
  | .letIn x e body => do
      let v ← act fun cells => M.evalTo cells e
      set x (.value v)
      run n body
  | .letRemote x e body => do
      let c ← act fun cells => M.eval cells e >>= M.deref cells
      set x c
      run n body
  | .assignment var e => do
      let cells ← act fun cells => do
        let o ← M.eval cells e
        let p ← M.place cells var
        M.assign cells p o
      setFirst fun _ => cells
  | .operation name h exprs vars => do
      let _ ← act fun cells => M.eval cells (.operation name h exprs vars)
      pure ()
  | .ret e => do
      let v ← act fun cells => M.evalTo cells e
      throw (.returned v)
  | .ifThen c thn els => do
      let v ← act fun cells => M.evalTo cells c
      if M.host.truth v then run n thn else run n els
  | .whileLoop c body => turns (M.condition c) (run n body) n
  | .nil => pure ()
  | .cons first rest => do
      run n first
      run n rest

/-- The program comes to an end. -/
def Ends (st : Stmt) (s : Cells V × (K → V) × Sh) (r : Except (Signal V F) Unit)
    (s' : Cells V × (K → V) × Sh) : Prop :=
  ∃ n, (M.run n st).run s = (r, s') ∧ r ≠ .error .outOfTurns

end Statements

end Machine

end MixT.Flatten
