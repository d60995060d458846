import MixT.Syntax.Labels

/-! # Syntax trees

The flattened parse tree and the typed, labelled tree. After flattening, every
operand is a variable. The typed tree carries a label at each node; its label
type is a parameter, so that one tree serves before and after inference. -/

namespace MixT

/-- A variable of the program, or the name given to a while loop. -/
inductive VarName
  | ident (chars : List Char)
  | counter (seqnum depth : Nat)
  deriving DecidableEq, Repr

/-- The empty string, the name of a loop before naming. -/
def VarName.unnamed : VarName := .ident []

abbrev FieldName := List Char

abbrev OperName := List Char

/-- Types of the host language, with the handles that the compiler inspects. -/
inductive Ty (L : Type*)
  | base (name : List Char)
  | handle (label : L) (type : Ty L) (operations : List OperName)
  deriving DecidableEq, Repr

namespace Ty

variable {L : Type*}

def int : Ty L := .base ['i', 'n', 't']

def bool : Ty L := .base ['b', 'o', 'o', 'l']

def void : Ty L := .base ['v', 'o', 'i', 'd']

def tombstone : Ty L := .base ['T', 'o', 'm', 'b', 's', 't', 'o', 'n', 'e']

/-- `ListStub`, the type of a list under construction. -/
def listStub : Ty L := .base ['L', 'i', 's', 't']

/-- `T::label`, for the types that have one. -/
def label [DecidableEq L] [Bot L] : Ty L → Option L
  | .handle l _ _ => some l
  | t => if t = listStub then some ⊥ else none

/-- `T::type` of a handle. -/
def pointee : Ty L → Option (Ty L)
  | .handle _ t _ => some t
  | .base _ => none

end Ty

namespace Builtin

def trueName : VarName := .ident ['t', 'r', 'u', 'e']

def falseName : VarName := .ident ['f', 'a', 'l', 's', 'e']

def listName : VarName :=
  .ident ['d', 'e', 'f', 'a', 'u', 'l', 't', ' ', 'l', 'i', 's', 't']

def pushBack : OperName := ['p', 'u', 's', 'h', '_', 'b', 'a', 'c', 'k']

def nulled : OperName := ['n', 'u', 'l', 'l', 'e', 'd']

def new : OperName := ['n', 'e', 'w']

/-- `is_builtin` on variable names. -/
def isBuiltinVar (x : VarName) : Bool := x = trueName || x = falseName || x = listName

/-- `is_builtin` on operation names. -/
def isBuiltinOper (name : OperName) : Bool := name = pushBack || name = nulled

/-- The variable that holds the tombstone of a tracked transaction. -/
def tombstoneName : VarName :=
  .ident ['t', 'o', 'm', 'b', 's', 't', 'o', 'n', 'e', Char.ofNat 0]

end Builtin

/-- The operators of the typed tree. -/
inductive BinOperator
  | plus
  | times
  | minus
  | divide
  | and
  | or
  | greater
  | less
  | equals
  deriving DecidableEq, Repr

namespace Parsed

/-- A flattened expression. -/
inductive Expr (L : Type*)
  | varReference (x : VarName)
  | fieldReference (x : VarName) (f : FieldName)
  | constant (i : Int)
  | binOp (op : BinOperator) (l r : VarName)
  | isValid (h : VarName)
  | endorse (l : L) (x : VarName)
  | ensure (l : L) (x : VarName)
  | operation (name : OperName) (h : VarName) (args : List VarName)
  deriving DecidableEq, Repr

/-- A target of an assignment. -/
inductive Target
  | var (x : VarName)
  | field (x : VarName) (f : FieldName)
  deriving DecidableEq, Repr

/-- A flattened statement. A sequence is a chain of `cons` that ends in `nil`. -/
inductive Stmt (L : Type*)
  | letIn (x : VarName) (e : Expr L) (body : Stmt L)
  | letRemote (x : VarName) (h : VarName) (body : Stmt L)
  | operation (name : OperName) (h : VarName) (args : List VarName)
  | assignment (target : Target) (e : VarName)
  | ret (e : VarName)
  | ifThen (condition : VarName) (thenBranch elseBranch : Stmt L)
  | whileLoop (condition : VarName) (body : Stmt L)
  | nil
  | cons (first rest : Stmt L)
  deriving DecidableEq, Repr

end Parsed

/-- `Expression<label, yield, VarReference<var>>`. -/
structure VarRef (Λ L : Type*) where
  label : Λ
  yield : Ty L
  var : VarName
  deriving DecidableEq, Repr

/-- The form of an expression. -/
inductive Form (Λ L : Type*)
  | varReference (x : VarName)
  | fieldReference (struct : VarRef Λ L) (f : FieldName)
  | constant (i : Int)
  | binOp (op : BinOperator) (l r : VarRef Λ L)
  | generateTombstone
  | isValid (h : VarRef Λ L)
  | endorse (l : L) (x : VarRef Λ L)
  | operation (name : OperName) (h : VarRef Λ L) (args : List (VarRef Λ L))
  deriving DecidableEq, Repr

/-- `Expression<label, yield, form>`. -/
structure Expression (Λ L : Type*) where
  label : Λ
  yield : Ty L
  form : Form Λ L
  deriving DecidableEq, Repr

/-- The left side of an assignment. -/
inductive Target (Λ L : Type*)
  | var (x : VarRef Λ L)
  | field (label : Λ) (yield : Ty L) (struct : VarRef Λ L) (f : FieldName)
  deriving DecidableEq, Repr

/-- `Binding<label, yield, var, expr>`. -/
structure Binding (Λ L E : Type*) where
  label : Λ
  yield : Ty L
  var : VarName
  expr : E
  deriving DecidableEq, Repr

/-- A typed statement. A sequence is a chain of `cons` that ends in `nil`, each
node with the label of the sequence. -/
inductive Statement (Λ L : Type*)
  | letIn (label : Λ) (binding : Binding Λ L (Expression Λ L)) (body : Statement Λ L)
  | letRemote (label : Λ) (binding : Binding Λ L (VarRef Λ L)) (body : Statement Λ L)
  | operation (label : Λ) (name : OperName) (h : VarRef Λ L) (args : List (VarRef Λ L))
  | assignment (label : Λ) (target : Target Λ L) (e : VarRef Λ L)
  | ret (label : Λ) (e : VarRef Λ L)
  | accompanyWrite (label : Λ) (target : Target Λ L)
  | writeTombstone (label : Λ) (e : VarRef Λ L)
  | ifThen (label : Λ) (condition : VarRef Λ L) (thenBranch elseBranch : Statement Λ L)
  | whileLoop (label : Λ) (name : VarName) (condition : VarRef Λ L) (body : Statement Λ L)
  | nil (label : Λ)
  | cons (label : Λ) (first rest : Statement Λ L)
  deriving DecidableEq, Repr

section Labels

variable {Λ Λ' Λ'' L : Type*}

namespace Target

def label : Target Λ L → Λ
  | .var x => x.label
  | .field l _ _ _ => l

def yield : Target Λ L → Ty L
  | .var x => x.yield
  | .field _ t _ _ => t

/-- The variable reference at the bottom of a target. -/
def base : Target Λ L → VarRef Λ L
  | .var x => x
  | .field _ _ struct _ => struct

/-- `base_var`. -/
def baseVar (t : Target Λ L) : VarName := t.base.var

end Target

namespace Statement

def label : Statement Λ L → Λ
  | .letIn l _ _ => l
  | .letRemote l _ _ => l
  | .operation l _ _ _ => l
  | .assignment l _ _ => l
  | .ret l _ => l
  | .accompanyWrite l _ => l
  | .writeTombstone l _ => l
  | .ifThen l _ _ _ => l
  | .whileLoop l _ _ _ => l
  | .nil l => l
  | .cons l _ _ => l

end Statement

/-- Change every label of a tree. -/
def VarRef.mapLabel (f : Λ → Λ') (x : VarRef Λ L) : VarRef Λ' L := ⟨f x.label, x.yield, x.var⟩

def Form.mapLabel (f : Λ → Λ') : Form Λ L → Form Λ' L
  | .varReference x => .varReference x
  | .fieldReference struct fld => .fieldReference (struct.mapLabel f) fld
  | .constant i => .constant i
  | .binOp op l r => .binOp op (l.mapLabel f) (r.mapLabel f)
  | .generateTombstone => .generateTombstone
  | .isValid h => .isValid (h.mapLabel f)
  | .endorse l x => .endorse l (x.mapLabel f)
  | .operation name h args => .operation name (h.mapLabel f) (args.map (VarRef.mapLabel f))

def Expression.mapLabel (f : Λ → Λ') (e : Expression Λ L) : Expression Λ' L :=
  ⟨f e.label, e.yield, e.form.mapLabel f⟩

def Target.mapLabel (f : Λ → Λ') : Target Λ L → Target Λ' L
  | .var x => .var (x.mapLabel f)
  | .field l t struct fld => .field (f l) t (struct.mapLabel f) fld

theorem Target.label_mapLabel (f : Λ → Λ') (t : Target Λ L) :
    (t.mapLabel f).label = f t.label := by
  cases t <;> rfl

theorem Target.yield_mapLabel (f : Λ → Λ') (t : Target Λ L) :
    (t.mapLabel f).yield = t.yield := by
  cases t <;> rfl

def Statement.mapLabel (f : Λ → Λ') : Statement Λ L → Statement Λ' L
  | .letIn l b body =>
      .letIn (f l) ⟨f b.label, b.yield, b.var, b.expr.mapLabel f⟩ (body.mapLabel f)
  | .letRemote l b body =>
      .letRemote (f l) ⟨f b.label, b.yield, b.var, b.expr.mapLabel f⟩ (body.mapLabel f)
  | .operation l name h args =>
      .operation (f l) name (h.mapLabel f) (args.map (VarRef.mapLabel f))
  | .assignment l target e => .assignment (f l) (target.mapLabel f) (e.mapLabel f)
  | .ret l e => .ret (f l) (e.mapLabel f)
  | .accompanyWrite l target => .accompanyWrite (f l) (target.mapLabel f)
  | .writeTombstone l e => .writeTombstone (f l) (e.mapLabel f)
  | .ifThen l c t e => .ifThen (f l) (c.mapLabel f) (t.mapLabel f) (e.mapLabel f)
  | .whileLoop l name c body => .whileLoop (f l) name (c.mapLabel f) (body.mapLabel f)
  | .nil l => .nil (f l)
  | .cons l first rest => .cons (f l) (first.mapLabel f) (rest.mapLabel f)

theorem VarRef.mapLabel_mapLabel (f : Λ → Λ') (g : Λ' → Λ'') (x : VarRef Λ L) :
    (x.mapLabel f).mapLabel g = x.mapLabel (g ∘ f) := rfl

theorem Form.mapLabel_mapLabel (f : Λ → Λ') (g : Λ' → Λ'') (e : Form Λ L) :
    (e.mapLabel f).mapLabel g = e.mapLabel (g ∘ f) := by
  cases e <;> simp [Form.mapLabel, VarRef.mapLabel]

theorem Expression.mapLabel_mapLabel (f : Λ → Λ') (g : Λ' → Λ'') (e : Expression Λ L) :
    (e.mapLabel f).mapLabel g = e.mapLabel (g ∘ f) := by
  simp [Expression.mapLabel, Form.mapLabel_mapLabel]

theorem Target.mapLabel_mapLabel (f : Λ → Λ') (g : Λ' → Λ'') (t : Target Λ L) :
    (t.mapLabel f).mapLabel g = t.mapLabel (g ∘ f) := by
  cases t <;> rfl

theorem Statement.mapLabel_mapLabel (f : Λ → Λ') (g : Λ' → Λ'') (s : Statement Λ L) :
    (s.mapLabel f).mapLabel g = s.mapLabel (g ∘ f) := by
  induction s <;>
    simp_all [Statement.mapLabel, Expression.mapLabel_mapLabel, Target.mapLabel_mapLabel,
      VarRef.mapLabel]

@[simp] theorem VarRef.mapLabel_id : (VarRef.mapLabel fun l => l : VarRef Λ L → VarRef Λ L) = id :=
  rfl

theorem Form.mapLabel_id (e : Form Λ L) : e.mapLabel (fun l => l) = e := by
  cases e <;> simp [Form.mapLabel]

theorem Target.mapLabel_id (t : Target Λ L) : t.mapLabel (fun l => l) = t := by
  cases t <;> rfl

theorem Statement.mapLabel_id (s : Statement Λ L) : s.mapLabel (fun l => l) = s := by
  induction s <;>
    simp_all [Statement.mapLabel, Expression.mapLabel, Form.mapLabel_id, Target.mapLabel_id]

/-- Every label of a tree. -/
def Form.labels : Form Λ L → List Λ
  | .varReference _ => []
  | .fieldReference struct _ => [struct.label]
  | .constant _ => []
  | .binOp _ l r => [l.label, r.label]
  | .generateTombstone => []
  | .isValid h => [h.label]
  | .endorse _ x => [x.label]
  | .operation _ h args => h.label :: args.map VarRef.label

def Expression.labels (e : Expression Λ L) : List Λ := e.label :: e.form.labels

def Target.labels : Target Λ L → List Λ
  | .var x => [x.label]
  | .field label _ struct _ => [label, struct.label]

def Statement.labels : Statement Λ L → List Λ
  | .letIn l b body => l :: b.label :: (b.expr.labels ++ body.labels)
  | .letRemote l b body => l :: b.label :: b.expr.label :: body.labels
  | .operation l _ h args => l :: h.label :: args.map VarRef.label
  | .assignment l target e => l :: (target.labels ++ [e.label])
  | .ret l e => [l, e.label]
  | .accompanyWrite l target => l :: target.labels
  | .writeTombstone l e => [l, e.label]
  | .ifThen l c t e => l :: c.label :: (t.labels ++ e.labels)
  | .whileLoop l _ c body => l :: c.label :: body.labels
  | .nil l => [l]
  | .cons l first rest => l :: (first.labels ++ rest.labels)

section LabelsOfMap

variable (f g : Λ → Λ')

theorem Form.labels_mapLabel (e : Form Λ L) : (e.mapLabel f).labels = e.labels.map f := by
  cases e <;> simp [Form.mapLabel, Form.labels, VarRef.mapLabel]

theorem Expression.labels_mapLabel (e : Expression Λ L) :
    (e.mapLabel f).labels = e.labels.map f := by
  simp [Expression.mapLabel, Expression.labels, Form.labels_mapLabel]

theorem Target.labels_mapLabel (t : Target Λ L) : (t.mapLabel f).labels = t.labels.map f := by
  cases t <;> rfl

theorem Statement.labels_mapLabel (s : Statement Λ L) :
    (s.mapLabel f).labels = s.labels.map f := by
  induction s <;>
    simp_all [Statement.mapLabel, Statement.labels, Expression.labels_mapLabel,
      Target.labels_mapLabel, VarRef.mapLabel]

theorem Form.mapLabel_congr {e : Form Λ L} (h : ∀ l ∈ e.labels, f l = g l) :
    e.mapLabel f = e.mapLabel g := by
  cases e <;> simp_all [Form.mapLabel, Form.labels, VarRef.mapLabel]

theorem Expression.mapLabel_congr {e : Expression Λ L} (h : ∀ l ∈ e.labels, f l = g l) :
    e.mapLabel f = e.mapLabel g := by
  simp only [Expression.labels, List.mem_cons] at h
  simp only [Expression.mapLabel, h e.label (Or.inl rfl),
    Form.mapLabel_congr f g fun l hl => h l (Or.inr hl)]

theorem Target.mapLabel_congr {t : Target Λ L} (h : ∀ l ∈ t.labels, f l = g l) :
    t.mapLabel f = t.mapLabel g := by
  cases t <;> simp_all [Target.mapLabel, Target.labels, VarRef.mapLabel]

theorem Statement.mapLabel_congr {s : Statement Λ L} (h : ∀ l ∈ s.labels, f l = g l) :
    s.mapLabel f = s.mapLabel g := by
  induction s with
  | letIn l b body ih =>
      have hb := Expression.mapLabel_congr f g (e := b.expr)
        fun l hl => h l (by simp [Statement.labels, hl])
      have hbody := ih fun l hl => h l (by simp [Statement.labels, hl])
      simp [Statement.mapLabel, hb, hbody, h l (by simp [Statement.labels]),
        h b.label (by simp [Statement.labels])]
  | assignment l t e =>
      have ht := Target.mapLabel_congr f g (t := t)
        fun l hl => h l (by simp [Statement.labels, hl])
      simp [Statement.mapLabel, VarRef.mapLabel, ht, h l (by simp [Statement.labels]),
        h e.label (by simp [Statement.labels])]
  | accompanyWrite l t =>
      have ht := Target.mapLabel_congr f g (t := t)
        fun l hl => h l (by simp [Statement.labels, hl])
      simp [Statement.mapLabel, ht, h l (by simp [Statement.labels])]
  | _ => simp_all [Statement.mapLabel, Statement.labels, VarRef.mapLabel]

end LabelsOfMap

end Labels

end MixT
