import MixT.Split.Ast
import MixT.Split.Naming
import MixT.Inference.Constraints

/-! # Splitting into phases

Each label gets a phase: what it does itself, loops over what stronger phases decided,
and steps over the bindings of other phases. Each phase lists the variables that it
provides and those that it requires from stronger phases. -/

namespace MixT.Split

open Library

/-- An entry of `requires`, `provides` and `inherits`. -/
inductive VarBinding (L : Type*)
  | type (b : TypeBinding L L)
  | loop (name : VarName)
  deriving DecidableEq, Repr

/-- Static assertions of the splitter, and expressions that it has no case for. -/
inductive SplitError
  | varReferenceBeforeDefinition
  | missingBinding
  | mismatchedBinding
  | noOverload
  deriving DecidableEq, Repr

/-- `extracted_phase`. -/
structure Collected (L : Type*) where
  requires : List (VarBinding L)
  provides : List (VarBinding L)
  ast : Stmt L
  deriving DecidableEq, Repr

section Bindings

variable {L : Type*}

def VarBinding.name : VarBinding L → VarName
  | .type b => b.name
  | .loop name => name

/-- `contains_var_of_name`. -/
def containsVarOfName (x : VarName) (bindings : List (VarBinding L)) : Bool :=
  bindings.any fun b => b.name = x

variable [DecidableEq L]

/-- The binding derives from `type_binding_super<x, t>`. -/
def VarBinding.binds (x : VarName) (t : Ty L) : VarBinding L → Bool
  | .type b => b.name = x ∧ b.yield = some t
  | .loop _ => false

/-- `contains_subtype`. -/
def containsSubtype (bindings : List (VarBinding L)) (x : VarName) (t : Ty L) : Bool :=
  bindings.any (VarBinding.binds x t)

theorem containsSubtype_iff {bindings : List (VarBinding L)} {x : VarName} {t : Ty L} :
    containsSubtype bindings x t = true ↔
      ∃ b, .type b ∈ bindings ∧ b.name = x ∧ b.yield = some t := by
  simp only [containsSubtype, List.any_eq_true]
  constructor
  · rintro ⟨b, hb, h⟩
    cases b with
    | type b => exact ⟨b, hb, by simpa [VarBinding.binds] using h⟩
    | loop name => simp [VarBinding.binds] at h
  · rintro ⟨b, hb, h⟩
    exact ⟨.type b, hb, by simpa [VarBinding.binds] using h⟩

end Bindings

section Collect

variable {L : Type*} [LinearOrder L] (k : L) (inherits : List (VarBinding L))

/-- `_collect_phase` of a variable reference: what it requires. -/
def collectVar (provides : List (VarBinding L)) (x : VarRef L L) :
    Except SplitError (List (VarBinding L)) :=
  if Builtin.isBuiltinVar x.var then .ok []
  else if ¬ FlowsTo x.label k then .error .varReferenceBeforeDefinition
  else if containsSubtype provides x.var x.yield then .ok []
  else
    match inherits.find? (VarBinding.binds x.var x.yield) with
    | some b => .ok [b]
    | none => .error .missingBinding

def collectVars (provides : List (VarBinding L)) :
    List (VarRef L L) → Except SplitError (List (VarBinding L))
  | [] => .ok []
  | x :: rest => do
      let r ← collectVar k inherits provides x
      let rs ← collectVars provides rest
      .ok (r ++ rs)

/-- `_collect_phase` of an expression. Endorsements are gone before the splitter runs. -/
def collectExpr (provides : List (VarBinding L)) (e : Expression L L) :
    Except SplitError (List (VarBinding L)) :=
  match e.form with
  | .varReference x => collectVar k inherits provides ⟨e.label, e.yield, x⟩
  | .fieldReference struct _ => collectVar k inherits provides struct
  | .constant _ => .ok []
  | .binOp _ l r => collectVars k inherits provides [l, r]
  | .generateTombstone => .ok []
  | .isValid h => collectVar k inherits provides h
  | .endorse _ _ => .error .noOverload
  | .operation _ h args => collectVars k inherits provides (h :: args)

/-- A node without its label. -/
def unlabel : L → Unit := fun _ => ()

/-- `let_ast_if_operation`: refresh the object after the body of a let that runs an
operation. -/
def letAstIfOperation (o : Origin) (e : Expression L L) (ast : Stmt L) : Stmt L :=
  match e.form with
  | .operation _ h _ => .cons ast (.cons (.refreshRemoteOccurance o (h.mapLabel unlabel)) .nil)
  | _ => ast

/-- `collect_phase`. -/
def collectPhase : Origin → List (VarBinding L) → Statement L L → Except SplitError (Collected L)
  | o, provides, .letIn label b body =>
      if label = k then do
        if ¬ FlowsTo k b.label then .error .mismatchedBinding
        else
          let reqs ← collectExpr k inherits provides b.expr
          let newBinding := .type ⟨b.var, b.yield, b.label, .localVar⟩
          let body ← collectPhase (0 :: o) (newBinding :: provides) body
          .ok ⟨reqs ++ body.requires, newBinding :: body.provides,
            letAstIfOperation o b.expr
              (.letIn o ⟨b.label, b.yield, b.var, b.expr.mapLabel unlabel⟩ body.ast)⟩
      else do
        -- the binding runs at a different phase, skip it
        let body ← collectPhase (0 :: o) provides body
        .ok { body with ast := .cons (.incrementOccurance o b.var) (.cons body.ast .nil) }
  | o, provides, .letRemote label b body =>
      if label = k then do
        if ¬ FlowsTo k b.label then .error .mismatchedBinding
        else
          let reqs ← collectVar k inherits provides b.expr
          let newBinding := .type ⟨b.var, b.expr.yield, b.label, .remoteVar⟩
          let body ← collectPhase (0 :: o) (newBinding :: provides) body
          .ok ⟨reqs ++ body.requires, newBinding :: body.provides,
            .letRemote o ⟨b.label, b.yield, b.var, b.expr.mapLabel unlabel⟩ body.ast⟩
      else do
        let body ← collectPhase (0 :: o) provides body
        if FlowsTo label k then
          -- make sure that the binding is there
          let stepped := Stmt.cons (.incrementRemoteOccurance o b.var) (.cons body.ast .nil)
          if containsSubtype provides b.var b.yield then .ok { body with ast := stepped }
          else
            match inherits.find? (VarBinding.binds b.var b.yield) with
            | some r => .ok ⟨r :: body.requires, body.provides, stepped⟩
            | none => .error .missingBinding
        else .ok body
  | o, provides, .operation label name h args =>
      if label = k then do
        let reqs ← collectVars k inherits provides (h :: args)
        let operation := Stmt.operation o name (h.mapLabel unlabel) (args.map (VarRef.mapLabel unlabel))
        if Builtin.isBuiltinOper name then .ok ⟨reqs, [], operation⟩
        else
          .ok ⟨reqs, [], .cons operation
            (.cons (.refreshRemoteOccurance o (h.mapLabel unlabel)) .nil)⟩
      else .ok ⟨[], [], .nil⟩
  | o, provides, .assignment label target e =>
      if label = k then do
        let reqs ← collectVars k inherits provides [target.base, e]
        .ok ⟨reqs, [], .assignment o (target.mapLabel unlabel) (e.mapLabel unlabel)⟩
      else if FlowsTo label k then .ok ⟨[], [], .incrementOccurance o target.baseVar⟩
      else .ok ⟨[], [], .nil⟩
  | o, provides, .accompanyWrite label target =>
      if label = k then do
        let reqs ← collectVar k inherits provides target.base
        .ok ⟨reqs, [], .accompanyWrite o (target.mapLabel unlabel)⟩
      else .ok ⟨[], [], .nil⟩
  | o, provides, .ret label e =>
      if label = k then do
        let reqs ← collectVar k inherits provides e
        .ok ⟨reqs, [], .ret o (e.mapLabel unlabel)⟩
      else .ok ⟨[], [], .nil⟩
  | o, provides, .writeTombstone label e =>
      if label = k then do
        let reqs ← collectVar k inherits provides e
        .ok ⟨reqs, [], .writeTombstone o (e.mapLabel unlabel)⟩
      else .ok ⟨[], [], .nil⟩
  | o, provides, .whileLoop label name condition body =>
      if label = k then do
        let reqs ← collectVar k inherits provides condition
        let body ← collectPhase (0 :: o) provides body
        .ok ⟨reqs ++ body.requires, body.provides ++ [.loop name],
          .whileLoop o name (condition.mapLabel unlabel) body.ast⟩
      else if FlowsTo label k then do
        -- the condition is stronger: the phase can enter but cannot evaluate it
        let body ← collectPhase (0 :: o) provides body
        if .loop name ∈ provides ∨ .loop name ∈ inherits then
          .ok ⟨body.requires ++ [.loop name], body.provides, .forEach o name body.ast⟩
        else .error .missingBinding
      else .ok ⟨[], [], .nil⟩
  | o, provides, .ifThen label condition thenBranch elseBranch =>
      if FlowsTo label k then do
        let reqs ← collectVar k inherits provides condition
        let t ← collectPhase (0 :: o) provides thenBranch
        let e ← collectPhase (1 :: o) provides elseBranch
        .ok ⟨reqs ++ t.requires ++ e.requires, t.provides ++ e.provides,
          .ifThen o (condition.mapLabel unlabel) t.ast e.ast⟩
      else .ok ⟨[], [], .nil⟩
  | _, _, .nil _ => .ok ⟨[], [], .nil⟩
  | o, provides, .cons _ first rest => do
      let first ← collectPhase (0 :: o) provides first
      let rest ← collectPhase (1 :: o) provides rest
      .ok ⟨first.requires ++ rest.requires, first.provides ++ rest.provides,
        (Stmt.cons first.ast rest.ast).collapse⟩

variable {k inherits}

/-- What `collectPhase` does with a let. -/
theorem collectPhase_letIn {o : Origin} {provides : List (VarBinding L)} {label : L}
    {b : Binding L L (Expression L L)} {body : Statement L L} {c : Collected L}
    (h : collectPhase k inherits o provides (.letIn label b body) = .ok c) :
    (label = k ∧ FlowsTo k b.label ∧ ∃ reqs c', collectExpr k inherits provides b.expr = .ok reqs ∧
      collectPhase k inherits (0 :: o) (.type ⟨b.var, b.yield, b.label, .localVar⟩ :: provides)
        body = .ok c' ∧
      c = ⟨reqs ++ c'.requires, .type ⟨b.var, b.yield, b.label, .localVar⟩ :: c'.provides,
        letAstIfOperation o b.expr
          (.letIn o ⟨b.label, b.yield, b.var, b.expr.mapLabel unlabel⟩ c'.ast)⟩) ∨
    (label ≠ k ∧ ∃ c', collectPhase k inherits (0 :: o) provides body = .ok c' ∧
      c = { c' with ast := .cons (.incrementOccurance o b.var) (.cons c'.ast .nil) }) := by
  unfold collectPhase at h
  split at h
  · rename_i hl
    split at h
    · simp at h
    · rename_i hflow
      obtain ⟨reqs, hreqs, h⟩ := except_bind_ok h
      obtain ⟨c', hbody, h⟩ := except_bind_ok h
      simp only [Except.ok.injEq] at h
      exact Or.inl ⟨hl, not_not.mp hflow, reqs, c', hreqs, hbody, h.symm⟩
  · rename_i hl
    obtain ⟨c', hbody, h⟩ := except_bind_ok h
    simp only [Except.ok.injEq] at h
    exact Or.inr ⟨hl, c', hbody, h.symm⟩

/-- What `collectPhase` does with a remote let. -/
theorem collectPhase_letRemote {o : Origin} {provides : List (VarBinding L)} {label : L}
    {b : Binding L L (VarRef L L)} {body : Statement L L} {c : Collected L}
    (h : collectPhase k inherits o provides (.letRemote label b body) = .ok c) :
    (label = k ∧ FlowsTo k b.label ∧ ∃ reqs c', collectVar k inherits provides b.expr = .ok reqs ∧
      collectPhase k inherits (0 :: o)
        (.type ⟨b.var, b.expr.yield, b.label, .remoteVar⟩ :: provides) body = .ok c' ∧
      c = ⟨reqs ++ c'.requires, .type ⟨b.var, b.expr.yield, b.label, .remoteVar⟩ :: c'.provides,
        .letRemote o ⟨b.label, b.yield, b.var, b.expr.mapLabel unlabel⟩ c'.ast⟩) ∨
    (label ≠ k ∧ ∃ c', collectPhase k inherits (0 :: o) provides body = .ok c' ∧
      ((FlowsTo label k ∧ ∃ reqs,
          (containsSubtype provides b.var b.yield = true ∧ reqs = [] ∨
            ∃ r, inherits.find? (VarBinding.binds b.var b.yield) = some r ∧ reqs = [r]) ∧
          c = ⟨reqs ++ c'.requires, c'.provides,
            .cons (.incrementRemoteOccurance o b.var) (.cons c'.ast .nil)⟩) ∨
        (¬ FlowsTo label k ∧ c = c'))) := by
  unfold collectPhase at h
  split at h
  · rename_i hl
    split at h
    · simp at h
    · rename_i hflow
      obtain ⟨reqs, hreqs, h⟩ := except_bind_ok h
      obtain ⟨c', hbody, h⟩ := except_bind_ok h
      simp only [Except.ok.injEq] at h
      exact Or.inl ⟨hl, not_not.mp hflow, reqs, c', hreqs, hbody, h.symm⟩
  · rename_i hl
    obtain ⟨c', hbody, h⟩ := except_bind_ok h
    refine Or.inr ⟨hl, c', hbody, ?_⟩
    split at h
    · rename_i hflow
      refine Or.inl ⟨hflow, ?_⟩
      split at h
      · rename_i hprov
        simp only [Except.ok.injEq] at h
        exact ⟨[], Or.inl ⟨hprov, rfl⟩, h.symm⟩
      · split at h
        · rename_i r hr
          simp only [Except.ok.injEq] at h
          exact ⟨[r], Or.inr ⟨r, hr, rfl⟩, h.symm⟩
        · simp at h
    · rename_i hflow
      simp only [Except.ok.injEq] at h
      exact Or.inr ⟨hflow, h.symm⟩

/-- What `collectPhase` does with an operation. -/
theorem collectPhase_operation {o : Origin} {provides : List (VarBinding L)} {label : L}
    {name : OperName} {hd : VarRef L L} {args : List (VarRef L L)} {c : Collected L}
    (h : collectPhase k inherits o provides (.operation label name hd args) = .ok c) :
    (label = k ∧ ∃ reqs, collectVars k inherits provides (hd :: args) = .ok reqs ∧
      c = ⟨reqs, [], if Builtin.isBuiltinOper name
        then .operation o name (hd.mapLabel unlabel) (args.map (VarRef.mapLabel unlabel))
        else .cons (.operation o name (hd.mapLabel unlabel) (args.map (VarRef.mapLabel unlabel)))
          (.cons (.refreshRemoteOccurance o (hd.mapLabel unlabel)) .nil)⟩) ∨
    (label ≠ k ∧ c = ⟨[], [], .nil⟩) := by
  unfold collectPhase at h
  split at h
  · rename_i hl
    obtain ⟨reqs, hreqs, h⟩ := except_bind_ok h
    refine Or.inl ⟨hl, reqs, hreqs, ?_⟩
    split at h <;> rename_i hname <;> simp only [Except.ok.injEq] at h <;> simp [hname, ← h]
  · rename_i hl
    simp only [Except.ok.injEq] at h
    exact Or.inr ⟨hl, h.symm⟩

/-- What `collectPhase` does with an assignment. -/
theorem collectPhase_assignment {o : Origin} {provides : List (VarBinding L)} {label : L}
    {target : Target L L} {e : VarRef L L} {c : Collected L}
    (h : collectPhase k inherits o provides (.assignment label target e) = .ok c) :
    (label = k ∧ ∃ reqs, collectVars k inherits provides [target.base, e] = .ok reqs ∧
      c = ⟨reqs, [], .assignment o (target.mapLabel unlabel) (e.mapLabel unlabel)⟩) ∨
    (label ≠ k ∧ c = ⟨[], [], if FlowsTo label k then .incrementOccurance o target.baseVar else .nil⟩) := by
  unfold collectPhase at h
  split at h
  · rename_i hl
    obtain ⟨reqs, hreqs, h⟩ := except_bind_ok h
    simp only [Except.ok.injEq] at h
    exact Or.inl ⟨hl, reqs, hreqs, h.symm⟩
  · rename_i hl
    refine Or.inr ⟨hl, ?_⟩
    split at h <;> rename_i hflow <;> simp only [Except.ok.injEq] at h <;> simp [hflow, ← h]

/-- What `collectPhase` does with a return. -/
theorem collectPhase_ret {o : Origin} {provides : List (VarBinding L)} {label : L}
    {e : VarRef L L} {c : Collected L}
    (h : collectPhase k inherits o provides (.ret label e) = .ok c) :
    (label = k ∧ ∃ reqs, collectVar k inherits provides e = .ok reqs ∧
      c = ⟨reqs, [], .ret o (e.mapLabel unlabel)⟩) ∨ (label ≠ k ∧ c = ⟨[], [], .nil⟩) := by
  unfold collectPhase at h
  split at h
  · rename_i hl
    obtain ⟨reqs, hreqs, h⟩ := except_bind_ok h
    simp only [Except.ok.injEq] at h
    exact Or.inl ⟨hl, reqs, hreqs, h.symm⟩
  · rename_i hl
    simp only [Except.ok.injEq] at h
    exact Or.inr ⟨hl, h.symm⟩

/-- What `collectPhase` does with an accompanying write. -/
theorem collectPhase_accompanyWrite {o : Origin} {provides : List (VarBinding L)} {label : L}
    {target : Target L L} {c : Collected L}
    (h : collectPhase k inherits o provides (.accompanyWrite label target) = .ok c) :
    (label = k ∧ ∃ reqs, collectVar k inherits provides target.base = .ok reqs ∧
      c = ⟨reqs, [], .accompanyWrite o (target.mapLabel unlabel)⟩) ∨
    (label ≠ k ∧ c = ⟨[], [], .nil⟩) := by
  unfold collectPhase at h
  split at h
  · rename_i hl
    obtain ⟨reqs, hreqs, h⟩ := except_bind_ok h
    simp only [Except.ok.injEq] at h
    exact Or.inl ⟨hl, reqs, hreqs, h.symm⟩
  · rename_i hl
    simp only [Except.ok.injEq] at h
    exact Or.inr ⟨hl, h.symm⟩

/-- What `collectPhase` does with a tombstone. -/
theorem collectPhase_writeTombstone {o : Origin} {provides : List (VarBinding L)} {label : L}
    {e : VarRef L L} {c : Collected L}
    (h : collectPhase k inherits o provides (.writeTombstone label e) = .ok c) :
    (label = k ∧ ∃ reqs, collectVar k inherits provides e = .ok reqs ∧
      c = ⟨reqs, [], .writeTombstone o (e.mapLabel unlabel)⟩) ∨
    (label ≠ k ∧ c = ⟨[], [], .nil⟩) := by
  unfold collectPhase at h
  split at h
  · rename_i hl
    obtain ⟨reqs, hreqs, h⟩ := except_bind_ok h
    simp only [Except.ok.injEq] at h
    exact Or.inl ⟨hl, reqs, hreqs, h.symm⟩
  · rename_i hl
    simp only [Except.ok.injEq] at h
    exact Or.inr ⟨hl, h.symm⟩

/-- What `collectPhase` does with a loop. -/
theorem collectPhase_whileLoop {o : Origin} {provides : List (VarBinding L)} {label : L}
    {name : VarName} {condition : VarRef L L} {body : Statement L L} {c : Collected L}
    (h : collectPhase k inherits o provides (.whileLoop label name condition body) = .ok c) :
    (label = k ∧ ∃ reqs c', collectVar k inherits provides condition = .ok reqs ∧
      collectPhase k inherits (0 :: o) provides body = .ok c' ∧
      c = ⟨reqs ++ c'.requires, c'.provides ++ [.loop name],
        .whileLoop o name (condition.mapLabel unlabel) c'.ast⟩) ∨
    (label ≠ k ∧ FlowsTo label k ∧ (.loop name ∈ provides ∨ .loop name ∈ inherits) ∧ ∃ c',
      collectPhase k inherits (0 :: o) provides body = .ok c' ∧
      c = ⟨c'.requires ++ [.loop name], c'.provides, .forEach o name c'.ast⟩) ∨
    (label ≠ k ∧ ¬ FlowsTo label k ∧ c = ⟨[], [], .nil⟩) := by
  unfold collectPhase at h
  split at h
  · rename_i hl
    obtain ⟨reqs, hreqs, h⟩ := except_bind_ok h
    obtain ⟨c', hbody, h⟩ := except_bind_ok h
    simp only [Except.ok.injEq] at h
    exact Or.inl ⟨hl, reqs, c', hreqs, hbody, h.symm⟩
  · rename_i hl
    split at h
    · rename_i hflow
      obtain ⟨c', hbody, h⟩ := except_bind_ok h
      split at h
      · rename_i hmem
        simp only [Except.ok.injEq] at h
        exact Or.inr (Or.inl ⟨hl, hflow, hmem, c', hbody, h.symm⟩)
      · simp at h
    · rename_i hflow
      simp only [Except.ok.injEq] at h
      exact Or.inr (Or.inr ⟨hl, hflow, h.symm⟩)

/-- What `collectPhase` does with an if. -/
theorem collectPhase_ifThen {o : Origin} {provides : List (VarBinding L)} {label : L}
    {condition : VarRef L L} {t e : Statement L L} {c : Collected L}
    (h : collectPhase k inherits o provides (.ifThen label condition t e) = .ok c) :
    (FlowsTo label k ∧ ∃ reqs ct ce, collectVar k inherits provides condition = .ok reqs ∧
      collectPhase k inherits (0 :: o) provides t = .ok ct ∧
      collectPhase k inherits (1 :: o) provides e = .ok ce ∧
      c = ⟨reqs ++ ct.requires ++ ce.requires, ct.provides ++ ce.provides,
        .ifThen o (condition.mapLabel unlabel) ct.ast ce.ast⟩) ∨
    (¬ FlowsTo label k ∧ c = ⟨[], [], .nil⟩) := by
  unfold collectPhase at h
  split at h
  · rename_i hflow
    obtain ⟨reqs, hreqs, h⟩ := except_bind_ok h
    obtain ⟨ct, ht, h⟩ := except_bind_ok h
    obtain ⟨ce, he, h⟩ := except_bind_ok h
    simp only [Except.ok.injEq] at h
    exact Or.inl ⟨hflow, reqs, ct, ce, hreqs, ht, he, h.symm⟩
  · rename_i hflow
    simp only [Except.ok.injEq] at h
    exact Or.inr ⟨hflow, h.symm⟩

/-- What `collectPhase` does with a sequence. -/
theorem collectPhase_cons {o : Origin} {provides : List (VarBinding L)} {label : L}
    {first rest : Statement L L} {c : Collected L}
    (h : collectPhase k inherits o provides (.cons label first rest) = .ok c) :
    ∃ cf cr, collectPhase k inherits (0 :: o) provides first = .ok cf ∧
      collectPhase k inherits (1 :: o) provides rest = .ok cr ∧
      c = ⟨cf.requires ++ cr.requires, cf.provides ++ cr.provides,
        (Stmt.cons cf.ast cr.ast).collapse⟩ := by
  unfold collectPhase at h
  obtain ⟨cf, hf, h⟩ := except_bind_ok h
  obtain ⟨cr, hr, h⟩ := except_bind_ok h
  simp only [Except.ok.injEq] at h
  exact ⟨cf, cr, hf, hr, h.symm⟩

theorem collectPhase_nil {o : Origin} {provides : List (VarBinding L)} {label : L}
    {c : Collected L} (h : collectPhase k inherits o provides (.nil label) = .ok c) :
    c = ⟨[], [], .nil⟩ := by
  unfold collectPhase at h
  simp only [Except.ok.injEq] at h
  exact h.symm

end Collect

section Passes

variable {L : Type*}

/-- `remove_unused`: without the steps over variables that are not required. -/
def removeUnused (requires : List (VarBinding L)) : Stmt L → Stmt L
  | .letIn o b body => .letIn o b (removeUnused requires body)
  | .letRemote o b body => .letRemote o b (removeUnused requires body)
  | .incrementOccurance o x =>
      if containsVarOfName x requires then .incrementOccurance o x else .nil
  | .incrementRemoteOccurance o x =>
      if containsVarOfName x requires then .incrementRemoteOccurance o x else .nil
  | .refreshRemoteOccurance o h =>
      if containsVarOfName h.var requires then .refreshRemoteOccurance o h else .nil
  | .ifThen o c t e => .ifThen o c (removeUnused requires t) (removeUnused requires e)
  | .whileLoop o name c body => .whileLoop o name c (removeUnused requires body)
  | .forEach o name body => .forEach o name (removeUnused requires body)
  | .cons first rest => .cons (removeUnused requires first) (removeUnused requires rest)
  | s => s

/-- The variables of an expression. -/
def formVars {Λ : Type*} : Form Λ L → List VarName
  | .varReference x => [x]
  | .fieldReference struct _ => [struct.var]
  | .constant _ => []
  | .binOp _ l r => [l.var, r.var]
  | .generateTombstone => []
  | .isValid h => [h.var]
  | .endorse _ x => [x.var]
  | .operation _ h args => h.var :: args.map VarRef.var

/-- What `clear_empty_statements` leaves: the tree, the variables that the removed ifs
tested, and the variables that are still used. -/
structure Cleared (L : Type*) where
  ast : Stmt L
  removeFromRequire : List VarName
  stillRequire : List VarName

/-- `clear_empty_statements`: without the ifs whose branches are both empty. -/
def clearEmpty : Stmt L → Cleared L
  | .letIn o b body =>
      let body := clearEmpty body
      ⟨.letIn o b body.ast, body.removeFromRequire, formVars b.expr.form ++ body.stillRequire⟩
  | .letRemote o b body =>
      let body := clearEmpty body
      ⟨.letRemote o b body.ast, body.removeFromRequire, b.expr.var :: body.stillRequire⟩
  | .operation o name h args => ⟨.operation o name h args, [], h.var :: args.map VarRef.var⟩
  | .assignment o target e => ⟨.assignment o target e, [], [target.baseVar, e.var]⟩
  | .ret o e => ⟨.ret o e, [], [e.var]⟩
  | .accompanyWrite o target => ⟨.accompanyWrite o target, [], [target.baseVar]⟩
  | .writeTombstone o e => ⟨.writeTombstone o e, [], [e.var]⟩
  | .incrementOccurance o x => ⟨.incrementOccurance o x, [], []⟩
  | .incrementRemoteOccurance o x => ⟨.incrementRemoteOccurance o x, [], [x]⟩
  | .refreshRemoteOccurance o h => ⟨.refreshRemoteOccurance o h, [], [h.var]⟩
  | .ifThen o c t e =>
      let t := clearEmpty t
      let e := clearEmpty e
      if t.ast.isEmptySequence && e.ast.isEmptySequence then ⟨.nil, [c.var], []⟩
      else ⟨.ifThen o c t.ast e.ast, t.removeFromRequire ++ e.removeFromRequire,
        c.var :: (t.stillRequire ++ e.stillRequire)⟩
  | .whileLoop o name c body =>
      let body := clearEmpty body
      ⟨.whileLoop o name c body.ast, body.removeFromRequire, c.var :: body.stillRequire⟩
  | .forEach o name body =>
      let body := clearEmpty body
      ⟨.forEach o name body.ast, body.removeFromRequire, body.stillRequire⟩
  | .nil => ⟨.nil, [], []⟩
  | .cons first rest =>
      let first := clearEmpty first
      let rest := clearEmpty rest
      ⟨(Stmt.cons first.ast rest.ast).collapse, first.removeFromRequire ++ rest.removeFromRequire,
        first.stillRequire ++ rest.stillRequire⟩

theorem clearEmpty_ifThen (o : Origin) (c : VarRef Unit L) (t e : Stmt L) :
    (clearEmpty (.ifThen o c t e)).ast =
      if (clearEmpty t).ast.isEmptySequence && (clearEmpty e).ast.isEmptySequence then .nil
      else .ifThen o c (clearEmpty t).ast (clearEmpty e).ast := by
  simp only [clearEmpty]
  split <;> rfl

/-- `without_names`. -/
def withoutNames (names : List VarName) (bindings : List (VarBinding L)) : List (VarBinding L) :=
  bindings.filter fun b => b.name ∉ names

end Passes

/-- `prephase`. -/
structure Prephase (L : Type*) where
  label : L
  ast : Stmt L
  provides : List (VarBinding L)
  inherits : List (VarBinding L)
  requires : List (VarBinding L)
  deriving DecidableEq, Repr

section Split

variable {L : Type*} [LinearOrder L] [BoundedOrder L]

/-- What one label makes of the collected phase. -/
def finalPhase (k : L) (inherits : List (VarBinding L)) (c : Collected L) : Prephase L :=
  let cleared := clearEmpty (removeUnused c.requires c.ast)
  let noLongerRequire := cleared.removeFromRequire.filter fun x => x ∉ cleared.stillRequire
  let requires := withoutNames noLongerRequire c.requires
  ⟨k, removeUnused requires cleared.ast, c.provides, inherits, requires⟩

/-- `_split_computation`, over the labels in descending order. -/
def splitLabels (prog : Statement L L) :
    List (VarBinding L) → List L → Except SplitError (List (Prephase L))
  | _, [] => .ok []
  | inherits, k :: labels => do
      let c ← collectPhase k inherits [] [] prog
      let rest ← splitLabels prog (inherits ++ c.provides) labels
      .ok (finalPhase k inherits c :: rest)

/-- The labels of a program, strongest first. -/
def phaseLabels (sorting : ComparisonSort) (prog : Statement L L) : List L :=
  (Inference.collectProperLabels sorting (prog.mapLabel .concrete)).reverse

/-- `split_computation`, after the naming pass. -/
def splitComputation (sorting : ComparisonSort) (inputs : List (VarName × Ty L))
    (named : Statement L L) : Except SplitError (List (Prephase L)) :=
  splitLabels named ((startBindings inputs).map .type) (phaseLabels sorting named)

end Split

end MixT.Split
