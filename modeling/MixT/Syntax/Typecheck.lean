import MixT.Syntax.Ast

/-! # Type checking and labelling

The pass computes the type and the label of every node of a flattened tree, with
a temporary label for each binding. `Typed` states what it establishes, over any
way to take the lower of two labels, so that it survives label inference. -/

namespace MixT

/-- `type_location`. -/
inductive TypeLocation
  | localVar
  | remoteVar
  deriving DecidableEq, Repr

/-- The lower of two labels, and concrete labels as labels. -/
structure LabelAlgebra (Λ L : Type*) where
  meet : Λ → Λ → Λ
  conc : L → Λ

namespace LabelAlgebra

variable {L : Type*} [LinearOrder L] [BoundedOrder L]

/-- The labels of type checking. -/
def checking : LabelAlgebra (Label L) L := ⟨Label.resolvedMin, .concrete⟩

/-- The concrete labels. -/
def concrete : LabelAlgebra L L := ⟨min, id⟩

/-- `resolved_label_min_vararg<h, h, args...>`, with the duplication of the source. -/
def argumentsMin {Λ : Type*} (A : LabelAlgebra Λ L) (handleLabel : L)
    (args : List (VarRef Λ L)) : Λ :=
  args.foldl (fun acc arg => A.meet acc arg.label)
    (A.meet (A.conc handleLabel) (A.conc handleLabel))

/-- The label of an operation. -/
def operationLabel {Λ : Type*} (A : LabelAlgebra Λ L) (pc : Λ) (h : VarRef Λ L)
    (handleLabel : L) (args : List (VarRef Λ L)) : Λ :=
  A.meet h.label (A.meet pc (A.argumentsMin handleLabel args))

end LabelAlgebra

/-- `type_binding`: `type` is the handle type of a remote variable. -/
structure TypeBinding (Λ L : Type*) where
  name : VarName
  type : Ty L
  label : Λ
  location : TypeLocation
  deriving DecidableEq, Repr

/-- `type_environment`. -/
structure TypeEnv (Λ L : Type*) where
  pcLabel : Λ
  bindings : List (TypeBinding Λ L)

/-- What the host language knows about its types. -/
structure HostTypes (L : Type*) where
  fieldType : Ty L → FieldName → Option (Ty L)
  binOpYield : BinOperator → Ty L → Ty L → Option (Ty L)
  operationReturn : Ty L → OperName → List (Ty L) → Option (Ty L)

/-- `mutils::find_match` over the bindings of an environment: some binding of the
name, if there is one. -/
structure Lookup (Λ L : Type*) where
  find : List (TypeBinding Λ L) → VarName → Option (TypeBinding Λ L)
  find_sound : ∀ bindings x b, find bindings x = some b → b ∈ bindings ∧ b.name = x
  find_complete : ∀ bindings x, (∃ b ∈ bindings, b.name = x) → (find bindings x).isSome

/-- The first binding of the name. -/
def Lookup.first (Λ L : Type*) : Lookup Λ L where
  find bindings x := bindings.find? fun b => b.name = x
  find_sound bindings x b h :=
    ⟨List.mem_of_find?_eq_some h, by simpa using List.find?_some h⟩
  find_complete bindings x := by
    rintro ⟨b, hb, rfl⟩
    exact List.find?_isSome.mpr ⟨b, hb, by simp⟩

section Bindings

variable {Λ L : Type*} (A : LabelAlgebra Λ L)

/-- `type_binding::type`, with `none` for a remote binding of a type that is no handle. -/
def TypeBinding.yield (b : TypeBinding Λ L) : Option (Ty L) :=
  match b.location with
  | .localVar => some b.type
  | .remoteVar => b.type.pointee

/-- `type_binding::label`; a remote binding takes the handle's label into account. -/
def TypeBinding.bindingLabel (b : TypeBinding Λ L) : Λ :=
  match b.location, b.type with
  | .remoteVar, .handle h _ _ => A.meet b.label (A.conc h)
  | _, _ => b.label

def TypeEnv.extend (env : TypeEnv Λ L) (b : TypeBinding Λ L) : TypeEnv Λ L :=
  { env with bindings := env.bindings ++ [b] }

def TypeEnv.withPc (env : TypeEnv Λ L) (pc : Λ) : TypeEnv Λ L := { env with pcLabel := pc }

@[simp] theorem TypeEnv.extend_pcLabel (env : TypeEnv Λ L) (b : TypeBinding Λ L) :
    (env.extend b).pcLabel = env.pcLabel := rfl

@[simp] theorem TypeEnv.extend_bindings (env : TypeEnv Λ L) (b : TypeBinding Λ L) :
    (env.extend b).bindings = env.bindings ++ [b] := rfl

@[simp] theorem TypeEnv.withPc_pcLabel (env : TypeEnv Λ L) (pc : Λ) :
    (env.withPc pc).pcLabel = pc := rfl

@[simp] theorem TypeEnv.withPc_bindings (env : TypeEnv Λ L) (pc : Λ) :
    (env.withPc pc).bindings = env.bindings := rfl

end Bindings

section Typecheck

variable {L : Type*} [LinearOrder L] [BoundedOrder L] (host : HostTypes L)
  (lookup : Lookup (Label L) L)

/-- A variable reference takes its label and type from its binding. -/
def typecheckVar (env : TypeEnv (Label L) L) (x : VarName) : Option (VarRef (Label L) L) := do
  let b ← lookup.find env.bindings x
  let t ← b.yield
  if t = .void then none else pure ⟨b.bindingLabel .checking, t, x⟩

def typecheckVars (env : TypeEnv (Label L) L) : List VarName → Option (List (VarRef (Label L) L))
  | [] => some []
  | x :: rest => do
      let r ← typecheckVar lookup env x
      let rs ← typecheckVars env rest
      pure (r :: rs)

/-- The label of the handle of an operation and the operation's return type. -/
def operationSignature (name : OperName) (handle : Ty L) (args : List (Ty L)) :
    Option (L × Ty L) :=
  if name = Builtin.pushBack then
    if handle = .listStub then some (⊥, .void) else none
  else do
    let h ← handle.label
    if name = Builtin.nulled ∨ name = Builtin.new then pure (h, handle)
    else
      let ret ← host.operationReturn handle name args
      pure (h, ret)

/-- An operation with its label and its return type. -/
def typecheckOperation (env : TypeEnv (Label L) L) (name : OperName) (h : VarName)
    (args : List VarName) :
    Option (Label L × Ty L × VarRef (Label L) L × List (VarRef (Label L) L)) := do
  let handle ← typecheckVar lookup env h
  let args ← typecheckVars lookup env args
  let (handleLabel, ret) ← operationSignature host name handle.yield (args.map VarRef.yield)
  pure (LabelAlgebra.checking.operationLabel env.pcLabel handle handleLabel args, ret, handle, args)

def typecheckExpr (env : TypeEnv (Label L) L) :
    Parsed.Expr L → Option (Expression (Label L) L)
  | .varReference x => do
      let r ← typecheckVar lookup env x
      pure ⟨r.label, r.yield, .varReference x⟩
  | .fieldReference x f => do
      let r ← typecheckVar lookup env x
      let t ← host.fieldType r.yield f
      pure ⟨r.label, t, .fieldReference r f⟩
  | .constant i => pure ⟨.concrete ⊤, .int, .constant i⟩
  | .binOp op l r => do
      let nextL ← typecheckVar lookup env l
      let nextR ← typecheckVar lookup env r
      let t ← host.binOpYield op nextL.yield nextR.yield
      pure ⟨Label.resolvedMin nextL.label nextR.label, t, .binOp op nextL nextR⟩
  | .isValid h => do
      let r ← typecheckVar lookup env h
      let handleLabel ← r.yield.label
      pure ⟨Label.resolvedMin (Label.resolvedMin env.pcLabel r.label)
        (.concrete handleLabel), .bool, .isValid r⟩
  | .endorse l x => do
      let r ← typecheckVar lookup env x
      pure ⟨.concrete l, r.yield, .endorse l r⟩
  | .ensure l x => do
      let r ← typecheckVar lookup env x
      pure ⟨.concrete l, r.yield, .varReference x⟩
  | .operation name h args => do
      let (label, ret, handle, args) ← typecheckOperation host lookup env name h args
      pure ⟨label, ret, .operation name handle args⟩

def typecheckTarget (env : TypeEnv (Label L) L) : Parsed.Target → Option (Target (Label L) L)
  | .var x => do
      let r ← typecheckVar lookup env x
      pure (.var r)
  | .field x f => do
      let r ← typecheckVar lookup env x
      let t ← host.fieldType r.yield f
      pure (.field r.label t r f)

/-- `typecheck`; `none` where a static assertion fails. -/
def typecheck (seqnum depth : Int) (env : TypeEnv (Label L) L) :
    Parsed.Stmt L → Option (Statement (Label L) L)
  | .letIn x e body => do
      let bound ← typecheckExpr host lookup env e
      if bound.yield = .void then none
      else
        let b := Label.temp seqnum depth
        let env' := env.extend ⟨x, bound.yield, b, .localVar⟩
        let nextBody ← typecheck (seqnum + 1) (depth + 1) env' body
        pure (.letIn (Label.resolvedMin bound.label env.pcLabel) ⟨b, bound.yield, x, bound⟩ nextBody)
  | .letRemote x h body => do
      let bound ← typecheckVar lookup env h
      match bound.yield with
      | .handle handleLabel type _ =>
          -- dereferencing the pointer lowers the label of the environment
          let env' := (env.withPc (Label.resolvedMin env.pcLabel bound.label)).extend
            ⟨x, bound.yield, Label.resolvedMin bound.label (.concrete handleLabel), .remoteVar⟩
          let nextBody ← typecheck (seqnum + 1) (depth + 1) env' body
          pure (.letRemote (Label.resolvedMin env.pcLabel (.concrete handleLabel))
            ⟨.temp seqnum depth, type, x, bound⟩ nextBody)
      | _ => none
  | .operation name h args => do
      let (label, _, handle, args) ← typecheckOperation host lookup env name h args
      pure (.operation label name handle args)
  | .assignment target e => do
      let target ← typecheckTarget host lookup env target
      let e ← typecheckVar lookup env e
      if target.yield = e.yield then
        pure (.assignment (Label.resolvedMin (Label.resolvedMin e.label target.label) env.pcLabel)
          target e)
      else none
  | .ret e => do
      let e ← typecheckVar lookup env e
      pure (.ret (.concrete ⊥) e)
  | .ifThen condition thenBranch elseBranch => do
      let condition ← typecheckVar lookup env condition
      if condition.yield = .bool then
        let env' := env.withPc (Label.resolvedMin condition.label env.pcLabel)
        let thenBranch ← typecheck (seqnum + 1) (depth + 1) env' thenBranch
        let elseBranch ← typecheck (seqnum + 2) (depth + 1) env' elseBranch
        pure (.ifThen (Label.resolvedMin env.pcLabel condition.label) condition
          thenBranch elseBranch)
      else none
  | .whileLoop condition body => do
      let condition ← typecheckVar lookup env condition
      if condition.yield = .bool then
        let env' := env.withPc (Label.resolvedMin condition.label env.pcLabel)
        let body ← typecheck (seqnum + 1) (depth + 1) env' body
        pure (.whileLoop (Label.resolvedMin env.pcLabel condition.label) .unnamed condition body)
      else none
  | .nil => pure (.nil env.pcLabel)
  | .cons first rest => do
      let first ← typecheck seqnum depth env first
      let rest ← typecheck (seqnum + 1) depth env rest
      pure (.cons env.pcLabel first rest)

/-- `true_binding`, `false_binding` and `list_binding`. -/
def builtinBindings : List (TypeBinding (Label L) L) :=
  [⟨Builtin.trueName, .bool, .concrete ⊤, .localVar⟩,
    ⟨Builtin.falseName, .bool, .concrete ⊤, .localVar⟩,
    ⟨Builtin.listName, .listStub, .concrete ⊥, .localVar⟩]

/-- The inputs of a transaction are local variables with label top. -/
def inputBindings (inputs : List (VarName × Ty L)) : List (TypeBinding (Label L) L) :=
  inputs.map fun input => ⟨input.1, input.2, .concrete ⊤, .localVar⟩

def transactionEnv (inputs : List (VarName × Ty L)) : TypeEnv (Label L) L :=
  ⟨.concrete ⊤, builtinBindings ++ inputBindings inputs⟩

/-- The bindings of a transaction's environment, with concrete labels. -/
def startBindings (inputs : List (VarName × Ty L)) : List (TypeBinding L L) :=
  [⟨Builtin.trueName, .bool, ⊤, .localVar⟩, ⟨Builtin.falseName, .bool, ⊤, .localVar⟩,
    ⟨Builtin.listName, .listStub, ⊥, .localVar⟩] ++
  inputs.map fun input => ⟨input.1, input.2, ⊤, .localVar⟩

def startEnv (inputs : List (VarName × Ty L)) : TypeEnv L L := ⟨⊤, startBindings inputs⟩

/-- Type checking of a transaction with the given inputs. -/
def typecheckTransaction (inputs : List (VarName × Ty L)) (body : Parsed.Stmt L) :
    Option (Statement (Label L) L) :=
  typecheck host lookup 1 1 (transactionEnv inputs) body

end Typecheck

section Typed

variable {Λ L : Type*} [LinearOrder L] [BoundedOrder L] (A : LabelAlgebra Λ L) (host : HostTypes L)
  (binder : Λ → Prop)

/-- The reference has the type and the label of a binding of the environment. -/
def TypedVar (env : TypeEnv Λ L) (x : VarRef Λ L) : Prop :=
  ∃ b ∈ env.bindings, b.name = x.var ∧ b.yield = some x.yield ∧ x.yield ≠ .void ∧
    x.label = b.bindingLabel A

/-- The reference has the type of a binding of the environment, whatever its label. -/
def NamesBinding (env : TypeEnv Λ L) (x : VarName) (t : Ty L) : Prop :=
  ∃ b ∈ env.bindings, b.name = x ∧ b.yield = some t ∧ t ≠ .void

def TypedOperation (env : TypeEnv Λ L) (label : Λ) (ret : Ty L) (name : OperName)
    (h : VarRef Λ L) (args : List (VarRef Λ L)) : Prop :=
  TypedVar A env h ∧ (∀ x ∈ args, TypedVar A env x) ∧
    ∃ handleLabel,
      operationSignature host name h.yield (args.map VarRef.yield) = some (handleLabel, ret) ∧
      label = A.operationLabel env.pcLabel h handleLabel args

/-- A variable in let position is a reference, or one whose label is put by `ensure`. -/
def TypedForm (env : TypeEnv Λ L) (label : Λ) (yield : Ty L) : Form Λ L → Prop
  | .varReference x =>
      TypedVar A env ⟨label, yield, x⟩ ∨ NamesBinding env x yield ∧ ∃ l, label = A.conc l
  | .fieldReference struct f =>
      TypedVar A env struct ∧ host.fieldType struct.yield f = some yield ∧ label = struct.label
  | .constant _ => label = A.conc ⊤
  | .binOp op l r =>
      TypedVar A env l ∧ TypedVar A env r ∧ host.binOpYield op l.yield r.yield = some yield ∧
        label = A.meet l.label r.label
  | .generateTombstone => label = A.conc ⊤
  | .isValid h =>
      TypedVar A env h ∧ ∃ handleLabel, h.yield.label = some handleLabel ∧
        label = A.meet (A.meet env.pcLabel h.label) (A.conc handleLabel)
  | .endorse l x => TypedVar A env x ∧ label = A.conc l
  | .operation name h args => TypedOperation A host env label yield name h args

def TypedExpr (env : TypeEnv Λ L) (e : Expression Λ L) : Prop :=
  TypedForm A host env e.label e.yield e.form

def TypedTarget (env : TypeEnv Λ L) : Target Λ L → Prop
  | .var x => TypedVar A env x
  | .field label yield struct f =>
      TypedVar A env struct ∧ host.fieldType struct.yield f = some yield ∧ label = struct.label

/-- The binding that a let adds to the environment. -/
def letBinding (b : Binding Λ L (Expression Λ L)) : TypeBinding Λ L :=
  ⟨b.var, b.yield, b.label, .localVar⟩

/-- The binding that a remote let adds to the environment. -/
def letRemoteBinding (handleLabel : L) (b : Binding Λ L (VarRef Λ L)) : TypeBinding Λ L :=
  ⟨b.var, b.expr.yield, A.meet b.expr.label (A.conc handleLabel), .remoteVar⟩

/-- What type checking establishes of a statement: each label is the one that the
labels around it call for. `binder` restricts the labels of bindings. -/
def Typed : TypeEnv Λ L → Statement Λ L → Prop
  | env, .letIn label b body =>
      TypedExpr A host env b.expr ∧ b.expr.yield = b.yield ∧ b.yield ≠ .void ∧ binder b.label ∧
        label = A.meet b.expr.label env.pcLabel ∧
        Typed (env.extend (letBinding b)) body
  | env, .letRemote label b body =>
      TypedVar A env b.expr ∧ binder b.label ∧
        ∃ handleLabel ops, b.expr.yield = .handle handleLabel b.yield ops ∧
          label = A.meet env.pcLabel (A.conc handleLabel) ∧
          Typed ((env.withPc (A.meet env.pcLabel b.expr.label)).extend
            (letRemoteBinding A handleLabel b)) body
  | env, .operation label name h args => ∃ ret, TypedOperation A host env label ret name h args
  | env, .assignment label target e =>
      TypedTarget A host env target ∧ TypedVar A env e ∧ target.yield = e.yield ∧
        label = A.meet (A.meet e.label target.label) env.pcLabel
  | env, .ret label e => TypedVar A env e ∧ label = A.conc ⊥
  | env, .accompanyWrite label target =>
      TypedTarget A host env target ∧ ∃ e, TypedVar A env e ∧
        label = A.meet (A.meet e.label target.label) env.pcLabel
  | env, .writeTombstone label e =>
      NamesBinding env e.var e.yield ∧ e.label = label ∧
        ∃ l, label = A.meet (A.conc l) env.pcLabel
  | env, .ifThen label condition thenBranch elseBranch =>
      TypedVar A env condition ∧ condition.yield = .bool ∧
        label = A.meet env.pcLabel condition.label ∧
        Typed (env.withPc (A.meet condition.label env.pcLabel)) thenBranch ∧
        Typed (env.withPc (A.meet condition.label env.pcLabel)) elseBranch
  | env, .whileLoop label _ condition body =>
      TypedVar A env condition ∧ condition.yield = .bool ∧
        label = A.meet env.pcLabel condition.label ∧
        Typed (env.withPc (A.meet condition.label env.pcLabel)) body
  | env, .nil label => label = env.pcLabel
  | env, .cons label first rest => label = env.pcLabel ∧ Typed env first ∧ Typed env rest

end Typed

section NamesBinding

variable {Λ Λ' L : Type*}

def TypeBinding.mapLabel (f : Λ → Λ') (b : TypeBinding Λ L) : TypeBinding Λ' L :=
  ⟨b.name, b.type, f b.label, b.location⟩

def TypeEnv.mapLabel (f : Λ → Λ') (env : TypeEnv Λ L) : TypeEnv Λ' L :=
  ⟨f env.pcLabel, env.bindings.map (TypeBinding.mapLabel f)⟩

theorem NamesBinding.mapLabel (f : Λ → Λ') {env : TypeEnv Λ L} {x : VarName} {t : Ty L}
    (h : NamesBinding env x t) : NamesBinding (env.mapLabel f) x t := by
  obtain ⟨b, hmem, hname, hyield, hvoid⟩ := h
  exact ⟨b.mapLabel f, List.mem_map_of_mem hmem, hname, hyield, hvoid⟩

theorem TypedVar.namesBinding {A : LabelAlgebra Λ L} {env : TypeEnv Λ L} {x : VarRef Λ L}
    (h : TypedVar A env x) : NamesBinding env x.var x.yield := by
  obtain ⟨b, hmem, hname, hyield, hvoid, -⟩ := h
  exact ⟨b, hmem, hname, hyield, hvoid⟩

end NamesBinding

section TypecheckTyped

variable {L : Type*} [LinearOrder L] [BoundedOrder L] {host : HostTypes L}
  {lookup : Lookup (Label L) L} {env : TypeEnv (Label L) L}

theorem typecheckVar_typed {x : VarName} {r : VarRef (Label L) L}
    (h : typecheckVar lookup env x = some r) :
    TypedVar .checking env r ∧ r.var = x := by
  simp only [typecheckVar, Option.bind_eq_bind, Option.bind_eq_some_iff] at h
  obtain ⟨b, hb, t, ht, h⟩ := h
  obtain ⟨hmem, hname⟩ := lookup.find_sound _ _ _ hb
  split at h
  · simp at h
  · rename_i hvoid
    simp only [Option.pure_def, Option.some.injEq] at h
    subst h
    exact ⟨⟨b, hmem, hname, ht, hvoid, rfl⟩, rfl⟩

theorem typecheckVars_typed {xs : List VarName} {rs : List (VarRef (Label L) L)}
    (h : typecheckVars lookup env xs = some rs) : ∀ r ∈ rs, TypedVar .checking env r := by
  induction xs generalizing rs with
  | nil =>
      simp only [typecheckVars, Option.some.injEq] at h
      simp [← h]
  | cons x rest ih =>
      simp only [typecheckVars, Option.bind_eq_bind, Option.bind_eq_some_iff] at h
      obtain ⟨r, hr, rs', hrs, h⟩ := h
      simp only [Option.pure_def, Option.some.injEq] at h
      subst h
      intro y hy
      obtain rfl | hy := List.mem_cons.mp hy
      · exact (typecheckVar_typed hr).1
      · exact ih hrs y hy

theorem typecheckOperation_typed {name : OperName} {h : VarName} {args : List VarName}
    {label : Label L} {ret : Ty L} {h' : VarRef (Label L) L} {args' : List (VarRef (Label L) L)}
    (hop : typecheckOperation host lookup env name h args = some (label, ret, h', args')) :
    TypedOperation .checking host env label ret name h' args' := by
  simp only [typecheckOperation, Option.bind_eq_bind, Option.bind_eq_some_iff] at hop
  obtain ⟨r, hr, rs, hrs, ⟨hl, t⟩, hsig, hop⟩ := hop
  simp only [Option.pure_def, Option.some.injEq, Prod.mk.injEq] at hop
  obtain ⟨rfl, rfl, rfl, rfl⟩ := hop
  exact ⟨(typecheckVar_typed hr).1, typecheckVars_typed hrs, hl, hsig, rfl⟩

theorem typecheckExpr_typed {e : Parsed.Expr L} {e' : Expression (Label L) L}
    (h : typecheckExpr host lookup env e = some e') : TypedExpr .checking host env e' := by
  cases e with
  | varReference x =>
      simp only [typecheckExpr, Option.bind_eq_bind, Option.bind_eq_some_iff] at h
      obtain ⟨r, hr, h⟩ := h
      obtain ⟨typed, rfl⟩ := typecheckVar_typed hr
      simp only [Option.pure_def, Option.some.injEq] at h
      exact h ▸ Or.inl typed
  | fieldReference x f =>
      simp only [typecheckExpr, Option.bind_eq_bind, Option.bind_eq_some_iff] at h
      obtain ⟨r, hr, t, ht, h⟩ := h
      simp only [Option.pure_def, Option.some.injEq] at h
      exact h ▸ ⟨(typecheckVar_typed hr).1, ht, rfl⟩
  | constant i =>
      simp only [typecheckExpr, Option.pure_def, Option.some.injEq] at h
      exact h ▸ rfl
  | binOp op l r =>
      simp only [typecheckExpr, Option.bind_eq_bind, Option.bind_eq_some_iff] at h
      obtain ⟨nl, hl, nr, hr, t, ht, h⟩ := h
      simp only [Option.pure_def, Option.some.injEq] at h
      exact h ▸ ⟨(typecheckVar_typed hl).1, (typecheckVar_typed hr).1, ht, rfl⟩
  | isValid x =>
      simp only [typecheckExpr, Option.bind_eq_bind, Option.bind_eq_some_iff] at h
      obtain ⟨r, hr, hl, hhl, h⟩ := h
      simp only [Option.pure_def, Option.some.injEq] at h
      exact h ▸ ⟨(typecheckVar_typed hr).1, hl, hhl, rfl⟩
  | endorse l x =>
      simp only [typecheckExpr, Option.bind_eq_bind, Option.bind_eq_some_iff] at h
      obtain ⟨r, hr, h⟩ := h
      simp only [Option.pure_def, Option.some.injEq] at h
      exact h ▸ ⟨(typecheckVar_typed hr).1, rfl⟩
  | ensure l x =>
      simp only [typecheckExpr, Option.bind_eq_bind, Option.bind_eq_some_iff] at h
      obtain ⟨r, hr, h⟩ := h
      obtain ⟨typed, rfl⟩ := typecheckVar_typed hr
      simp only [Option.pure_def, Option.some.injEq] at h
      exact h ▸ Or.inr ⟨typed.namesBinding, l, rfl⟩
  | operation name x args =>
      simp only [typecheckExpr, Option.bind_eq_bind, Option.bind_eq_some_iff] at h
      obtain ⟨⟨label, ret, h', args'⟩, hop, h⟩ := h
      simp only [Option.pure_def, Option.some.injEq] at h
      exact h ▸ typecheckOperation_typed hop

theorem typecheckTarget_typed {target : Parsed.Target} {t : Target (Label L) L}
    (h : typecheckTarget host lookup env target = some t) :
    TypedTarget .checking host env t := by
  cases target with
  | var x =>
      simp only [typecheckTarget, Option.bind_eq_bind, Option.bind_eq_some_iff] at h
      obtain ⟨r, hr, h⟩ := h
      simp only [Option.pure_def, Option.some.injEq] at h
      exact h ▸ (typecheckVar_typed hr).1
  | field x f =>
      simp only [typecheckTarget, Option.bind_eq_bind, Option.bind_eq_some_iff] at h
      obtain ⟨r, hr, t, ht, h⟩ := h
      simp only [Option.pure_def, Option.some.injEq] at h
      exact h ▸ ⟨(typecheckVar_typed hr).1, ht, rfl⟩

/-- The result of type checking is typed, with a temporary label on every binding. -/
theorem typecheck_typed {seqnum depth : Int} {env : TypeEnv (Label L) L} {s : Parsed.Stmt L}
    {s' : Statement (Label L) L} (h : typecheck host lookup seqnum depth env s = some s') :
    Typed .checking host (fun l => l.isTemp) env s' := by
  induction s generalizing seqnum depth env s' with
  | letIn x e body ih =>
      simp only [typecheck, Option.bind_eq_bind, Option.bind_eq_some_iff] at h
      obtain ⟨bound, hbound, h⟩ := h
      split at h
      · simp at h
      · rename_i hvoid
        obtain ⟨body', hbody, h⟩ := Option.bind_eq_some_iff.mp h
        simp only [Option.pure_def, Option.some.injEq] at h
        exact h ▸ ⟨typecheckExpr_typed hbound, rfl, hvoid, rfl, rfl, ih hbody⟩
  | letRemote x hd body ih =>
      simp only [typecheck, Option.bind_eq_bind, Option.bind_eq_some_iff] at h
      obtain ⟨bound, hbound, h⟩ := h
      split at h
      · rename_i handleLabel type ops hty
        obtain ⟨body', hbody, h⟩ := Option.bind_eq_some_iff.mp h
        simp only [Option.pure_def, Option.some.injEq] at h
        exact h ▸ ⟨(typecheckVar_typed hbound).1, rfl, handleLabel, ops, hty, rfl, ih hbody⟩
      · simp at h
  | operation name hd args =>
      simp only [typecheck, Option.bind_eq_bind, Option.bind_eq_some_iff] at h
      obtain ⟨⟨label, ret, h', args'⟩, hop, h⟩ := h
      simp only [Option.pure_def, Option.some.injEq] at h
      exact h ▸ ⟨ret, typecheckOperation_typed hop⟩
  | assignment target e =>
      simp only [typecheck, Option.bind_eq_bind, Option.bind_eq_some_iff] at h
      obtain ⟨t, ht, e', he, h⟩ := h
      split at h
      · rename_i hyield
        simp only [Option.pure_def, Option.some.injEq] at h
        exact h ▸ ⟨typecheckTarget_typed ht, (typecheckVar_typed he).1, hyield, rfl⟩
      · simp at h
  | ret e =>
      simp only [typecheck, Option.bind_eq_bind, Option.bind_eq_some_iff] at h
      obtain ⟨e', he, h⟩ := h
      simp only [Option.pure_def, Option.some.injEq] at h
      exact h ▸ ⟨(typecheckVar_typed he).1, rfl⟩
  | ifThen c t e iht ihe =>
      simp only [typecheck, Option.bind_eq_bind, Option.bind_eq_some_iff] at h
      obtain ⟨c', hc, h⟩ := h
      split at h
      · rename_i hbool
        obtain ⟨t', ht, h⟩ := Option.bind_eq_some_iff.mp h
        obtain ⟨e', he, h⟩ := Option.bind_eq_some_iff.mp h
        simp only [Option.pure_def, Option.some.injEq] at h
        exact h ▸ ⟨(typecheckVar_typed hc).1, hbool, rfl, iht ht, ihe he⟩
      · simp at h
  | whileLoop c body ih =>
      simp only [typecheck, Option.bind_eq_bind, Option.bind_eq_some_iff] at h
      obtain ⟨c', hc, h⟩ := h
      split at h
      · rename_i hbool
        obtain ⟨b', hb, h⟩ := Option.bind_eq_some_iff.mp h
        simp only [Option.pure_def, Option.some.injEq] at h
        exact h ▸ ⟨(typecheckVar_typed hc).1, hbool, rfl, ih hb⟩
      · simp at h
  | nil =>
      simp only [typecheck, Option.pure_def, Option.some.injEq] at h
      exact h ▸ rfl
  | cons first rest ihf ihr =>
      simp only [typecheck, Option.bind_eq_bind, Option.bind_eq_some_iff] at h
      obtain ⟨f', hf, r', hr, h⟩ := h
      simp only [Option.pure_def, Option.some.injEq] at h
      exact h ▸ ⟨rfl, ihf hf, ihr hr⟩

end TypecheckTyped

section TypedEval

variable {L : Type*} [LinearOrder L] [BoundedOrder L] {host : HostTypes L}
  (ρ : Int → Int → L)

theorem eval_checking_meet (a b : Label L) :
    (LabelAlgebra.checking.meet a b).eval ρ =
      LabelAlgebra.concrete.meet (a.eval ρ) (b.eval ρ) :=
  Label.eval_resolvedMin ρ a b

theorem eval_checking_conc (l : L) :
    (LabelAlgebra.checking.conc l).eval ρ = LabelAlgebra.concrete.conc l := rfl

theorem eval_bindingLabel (b : TypeBinding (Label L) L) :
    (b.bindingLabel .checking).eval ρ =
      (b.mapLabel (Label.eval ρ)).bindingLabel .concrete := by
  unfold TypeBinding.bindingLabel TypeBinding.mapLabel
  cases hloc : b.location <;> cases hty : b.type <;>
    simp [eval_checking_meet, eval_checking_conc]

theorem eval_operationLabel (pc : Label L) (h : VarRef (Label L) L) (handleLabel : L)
    (args : List (VarRef (Label L) L)) :
    (LabelAlgebra.checking.operationLabel pc h handleLabel args).eval ρ =
      LabelAlgebra.concrete.operationLabel (pc.eval ρ) (h.mapLabel (Label.eval ρ)) handleLabel
        (args.map (VarRef.mapLabel (Label.eval ρ))) := by
  have fold : ∀ (args : List (VarRef (Label L) L)) (acc : Label L),
      (args.foldl (fun acc arg => LabelAlgebra.checking.meet acc arg.label) acc).eval ρ =
        (args.map (VarRef.mapLabel (Label.eval ρ))).foldl
          (fun acc arg => LabelAlgebra.concrete.meet acc arg.label) (acc.eval ρ) := by
    intro args
    induction args with
    | nil => intro acc; rfl
    | cons a rest ih =>
        intro acc
        simp only [List.foldl_cons, List.map_cons, ih, eval_checking_meet]
        rfl
  simp only [LabelAlgebra.operationLabel, LabelAlgebra.argumentsMin, eval_checking_meet, fold,
    eval_checking_conc]
  rfl

theorem TypedVar.eval {env : TypeEnv (Label L) L} {x : VarRef (Label L) L}
    (h : TypedVar .checking env x) :
    TypedVar .concrete (env.mapLabel (Label.eval ρ)) (x.mapLabel (Label.eval ρ)) := by
  obtain ⟨b, hmem, hname, hyield, hvoid, hlabel⟩ := h
  refine ⟨b.mapLabel (Label.eval ρ), List.mem_map_of_mem hmem, hname, hyield, hvoid, ?_⟩
  rw [← eval_bindingLabel, ← hlabel]
  rfl

theorem TypedOperation.eval {env : TypeEnv (Label L) L} {label : Label L} {ret : Ty L}
    {name : OperName} {hd : VarRef (Label L) L} {args : List (VarRef (Label L) L)}
    (h : TypedOperation .checking host env label ret name hd args) :
    TypedOperation .concrete host (env.mapLabel (Label.eval ρ)) (label.eval ρ) ret name
      (hd.mapLabel (Label.eval ρ)) (args.map (VarRef.mapLabel (Label.eval ρ))) := by
  obtain ⟨hhd, hargs, handleLabel, hsig, rfl⟩ := h
  refine ⟨hhd.eval ρ, ?_, handleLabel, ?_, ?_⟩
  · intro x hx
    obtain ⟨y, hy, rfl⟩ := List.mem_map.mp hx
    exact (hargs y hy).eval ρ
  · rw [List.map_map]
    exact hsig
  · exact eval_operationLabel ρ _ _ _ _

theorem TypedExpr.eval {env : TypeEnv (Label L) L} {e : Expression (Label L) L}
    (h : TypedExpr .checking host env e) :
    TypedExpr .concrete host (env.mapLabel (Label.eval ρ)) (e.mapLabel (Label.eval ρ)) := by
  obtain ⟨label, yield, form⟩ := e
  cases form with
  | varReference x =>
      obtain h | ⟨hb, l, rfl⟩ := h
      · exact Or.inl (h.eval ρ)
      · exact Or.inr ⟨hb.mapLabel _, l, rfl⟩
  | fieldReference struct f =>
      obtain ⟨hs, ht, rfl⟩ := h
      exact ⟨hs.eval ρ, ht, rfl⟩
  | constant i => exact congrArg (Label.eval ρ) h
  | binOp op l r =>
      obtain ⟨hl, hr, ht, rfl⟩ := h
      exact ⟨hl.eval ρ, hr.eval ρ, ht, eval_checking_meet ρ _ _⟩
  | generateTombstone => exact congrArg (Label.eval ρ) h
  | isValid x =>
      obtain ⟨hx, hl, hhl, rfl⟩ := h
      have inner := eval_checking_meet ρ env.pcLabel x.label
      exact ⟨hx.eval ρ, hl, hhl, (eval_checking_meet ρ _ _).trans
        (congrArg (LabelAlgebra.concrete.meet · hl) inner)⟩
  | endorse l x =>
      obtain ⟨hx, rfl⟩ := h
      exact ⟨hx.eval ρ, rfl⟩
  | operation name x args => exact TypedOperation.eval ρ h

theorem TypedTarget.eval {env : TypeEnv (Label L) L} {t : Target (Label L) L}
    (h : TypedTarget .checking host env t) :
    TypedTarget .concrete host (env.mapLabel (Label.eval ρ)) (t.mapLabel (Label.eval ρ)) := by
  cases t with
  | var x => exact TypedVar.eval ρ h
  | field label yield struct f =>
      obtain ⟨hs, ht, rfl⟩ := h
      exact ⟨hs.eval ρ, ht, rfl⟩

/-- Typing survives label inference, whatever labels it puts for the temporary ones. -/
theorem Typed.eval {binder : Label L → Prop} {env : TypeEnv (Label L) L}
    {s : Statement (Label L) L} (h : Typed .checking host binder env s) :
    Typed .concrete host (fun _ => True) (env.mapLabel (Label.eval ρ))
      (s.mapLabel (Label.eval ρ)) := by
  induction s generalizing env with
  | letIn label b body ih =>
      obtain ⟨he, hy, hv, -, rfl, hbody⟩ := h
      have extended : (env.extend (letBinding b)).mapLabel (Label.eval ρ) =
          (env.mapLabel (Label.eval ρ)).extend
            (letBinding ⟨b.label.eval ρ, b.yield, b.var, b.expr.mapLabel (Label.eval ρ)⟩) := by
        simp [TypeEnv.extend, TypeEnv.mapLabel, TypeBinding.mapLabel, letBinding]
      exact ⟨he.eval ρ, hy, hv, trivial, eval_checking_meet ρ _ _, extended ▸ ih hbody⟩
  | letRemote label b body ih =>
      obtain ⟨he, -, handleLabel, ops, hy, rfl, hbody⟩ := h
      refine ⟨he.eval ρ, trivial, handleLabel, ops, hy, ?_, ?_⟩
      · exact eval_checking_meet ρ _ _
      · have hbody := ih hbody
        simp only [TypeEnv.extend, TypeEnv.withPc, TypeEnv.mapLabel, TypeBinding.mapLabel,
          letRemoteBinding, eval_checking_meet, eval_checking_conc, List.map_append,
          List.map_cons, List.map_nil] at hbody ⊢
        exact hbody
  | operation label name x args =>
      obtain ⟨ret, hop⟩ := h
      exact ⟨ret, hop.eval ρ⟩
  | assignment label target e =>
      obtain ⟨ht, he, hy, rfl⟩ := h
      refine ⟨ht.eval ρ, he.eval ρ, (Target.yield_mapLabel _ target).trans hy, ?_⟩
      rw [Target.label_mapLabel, eval_checking_meet, eval_checking_meet]
      rfl
  | ret label e =>
      obtain ⟨he, rfl⟩ := h
      exact ⟨he.eval ρ, rfl⟩
  | accompanyWrite label target =>
      obtain ⟨ht, e, he, rfl⟩ := h
      refine ⟨ht.eval ρ, e.mapLabel (Label.eval ρ), he.eval ρ, ?_⟩
      rw [Target.label_mapLabel, eval_checking_meet, eval_checking_meet]
      rfl
  | writeTombstone label e =>
      obtain ⟨hb, rfl, l, hl⟩ := h
      exact ⟨hb.mapLabel _, rfl, l, hl ▸ eval_checking_meet ρ _ _⟩
  | ifThen label c t e iht ihe =>
      obtain ⟨hc, hbool, rfl, ht, he⟩ := h
      have lowered : (env.withPc (LabelAlgebra.checking.meet c.label env.pcLabel)).mapLabel
          (Label.eval ρ) = (env.mapLabel (Label.eval ρ)).withPc (LabelAlgebra.concrete.meet
            (c.mapLabel (Label.eval ρ)).label (env.mapLabel (Label.eval ρ)).pcLabel) := by
        simp only [TypeEnv.withPc, TypeEnv.mapLabel, eval_checking_meet]
        rfl
      exact ⟨hc.eval ρ, hbool, eval_checking_meet ρ _ _, lowered ▸ iht ht, lowered ▸ ihe he⟩
  | whileLoop label name c body ih =>
      obtain ⟨hc, hbool, rfl, hbody⟩ := h
      have lowered : (env.withPc (LabelAlgebra.checking.meet c.label env.pcLabel)).mapLabel
          (Label.eval ρ) = (env.mapLabel (Label.eval ρ)).withPc (LabelAlgebra.concrete.meet
            (c.mapLabel (Label.eval ρ)).label (env.mapLabel (Label.eval ρ)).pcLabel) := by
        simp only [TypeEnv.withPc, TypeEnv.mapLabel, eval_checking_meet]
        rfl
      exact ⟨hc.eval ρ, hbool, eval_checking_meet ρ _ _, lowered ▸ ih hbody⟩
  | nil label => exact congrArg (Label.eval ρ) h
  | cons label first rest ihf ihr =>
      obtain ⟨rfl, hf, hr⟩ := h
      exact ⟨rfl, ihf hf, ihr hr⟩

theorem transactionEnv_eval (inputs : List (VarName × Ty L)) :
    (transactionEnv inputs).mapLabel (Label.eval ρ) = startEnv inputs := by
  simp [transactionEnv, startEnv, startBindings, TypeEnv.mapLabel, builtinBindings, inputBindings,
    TypeBinding.mapLabel]

end TypedEval

end MixT
