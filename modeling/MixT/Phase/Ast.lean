import MixT.Split.Ast

/-! # Phases as they run

The tree of a phase after recollapse, where an operand is an expression. Variables that a
statement changes stay variables. -/

namespace MixT.Phase

/-- `AST<label>::Expression`. -/
inductive Expr
  | varReference (x : VarName)
  | fieldReference (struct : Expr) (f : FieldName)
  | constant (i : Int)
  | binOp (op : BinOperator) (l r : Expr)
  | generateTombstone
  | isValid (h : Expr)
  | operation (name : OperName) (h : Expr) (args : List Expr)

/-- `AST<label>::Statement`. A sequence is a chain of `cons` that ends in `nil`. -/
inductive Stmt (L : Type*)
  | letIn (x : VarName) (e : Expr) (body : Stmt L)
  | letRemote (x : VarName) (h : Expr) (body : Stmt L)
  | operation (name : OperName) (h : Expr) (args : List Expr)
  | assignVar (x : VarName) (e : Expr)
  | assignField (x : VarName) (f : FieldName) (e : Expr)
  | ret (e : Expr)
  | accompanyWrite (x : VarName)
  | writeTombstone (x : VarName)
  | incrementOccurance (x : VarName)
  | incrementRemoteOccurance (x : VarName)
  | refreshRemoteOccurance (handle : Ty L) (x : VarName)
  | ifThen (condition : Expr) (thenBranch elseBranch : Stmt L)
  | whileLoop (name : VarName) (condition : Expr) (body : Stmt L)
  | forEach (name : VarName) (body : Stmt L)
  | nil
  | cons (first rest : Stmt L)

end MixT.Phase
