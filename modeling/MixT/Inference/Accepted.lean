import MixT.Inference.Soundness

/-! # Accepted programs

A program that passes type checking and label inference is typed with concrete labels,
and its operands flow where the constraints on them say. Constraints on the label of the
environment are not among these: inference can miss their sources. -/

namespace MixT

section OperandsFlow

variable {L : Type*} [LinearOrder L] [BoundedOrder L]

/-- The label of an operand flows to the label of a handle. -/
def FlowsToHandle (l : L) (handle : Ty L) : Prop :=
  ∀ handleLabel, handle.label = some handleLabel → FlowsTo l handleLabel

def Form.OperandsFlow : Form L L → Prop
  | .isValid h => FlowsToHandle h.label h.yield
  | .operation _ h args => ∀ x ∈ h :: args, FlowsToHandle x.label h.yield
  | _ => True

/-- Each operand flows to the handle that it is used with, each bound expression to its
binding, and each assigned expression to its target. -/
def Statement.OperandsFlow : Statement L L → Prop
  | .letIn _ b body => b.expr.form.OperandsFlow ∧ FlowsTo b.expr.label b.label ∧ OperandsFlow body
  | .letRemote _ b body =>
      FlowsToHandle b.expr.label b.expr.yield ∧ FlowsTo b.expr.label b.label ∧ OperandsFlow body
  | .operation _ _ h args => ∀ x ∈ h :: args, FlowsToHandle x.label h.yield
  | .assignment _ target e => FlowsTo e.label target.label
  | .ifThen _ _ t e => OperandsFlow t ∧ OperandsFlow e
  | .whileLoop _ _ _ body => OperandsFlow body
  | .cons _ first rest => OperandsFlow first ∧ OperandsFlow rest
  | _ => True

/-- No expression is an endorsement. -/
def Statement.EndorseFree {Λ : Type*} : Statement Λ L → Prop
  | .letIn _ b body => (∀ l x, b.expr.form ≠ .endorse l x) ∧ EndorseFree body
  | .letRemote _ _ body => EndorseFree body
  | .ifThen _ _ t e => EndorseFree t ∧ EndorseFree e
  | .whileLoop _ _ _ body => EndorseFree body
  | .cons _ first rest => EndorseFree first ∧ EndorseFree rest
  | _ => True

end OperandsFlow

namespace Inference

section Accepted

variable {L : Type*} [LinearOrder L] [BoundedOrder L]

/-- `prog` is what type checking and label inference make of a transaction. -/
def Accepted (sorting : Library.ComparisonSort) (host : HostTypes L)
    (lookup : Lookup (Label L) L) (inputs : List (VarName × Ty L)) (body : Parsed.Stmt L)
    (prog : Statement L L) : Prop :=
  ∃ ast, typecheckTransaction host lookup inputs body = some ast ∧
    inferLabels sorting ast = .ok (prog.mapLabel .concrete)

variable {ρ : Int → Int → L}

theorem flowsToHandle_of_satisfied {x : VarRef (Label L) L} {handle : Ty L} (why : Why)
    (sat : ∀ c ∈ flowToHandle x.label handle why, FlowsTo (c.high.eval ρ) (c.low.eval ρ)) :
    FlowsToHandle (x.mapLabel (Label.eval ρ)).label handle := by
  intro handleLabel hl
  simp only [flowToHandle, hl, List.mem_singleton, forall_eq] at sat
  exact sat

theorem operation_flows {h : VarRef (Label L) L} {args : List (VarRef (Label L) L)}
    (sat : ∀ c ∈ collectOperation h args, FlowsTo (c.high.eval ρ) (c.low.eval ρ)) :
    ∀ x ∈ h.mapLabel (Label.eval ρ) :: args.map (VarRef.mapLabel (Label.eval ρ)),
      FlowsToHandle x.label h.yield := by
  intro x hx
  obtain rfl | hx := List.mem_cons.mp hx
  · exact flowsToHandle_of_satisfied .operationExprHandle
      fun c hc => sat c (List.mem_append_left _ hc)
  · obtain ⟨y, hy, rfl⟩ := List.mem_map.mp hx
    refine flowsToHandle_of_satisfied .operationArgsHandle fun c hc =>
      sat c (List.mem_append_right _ ?_)
    exact List.mem_flatMap.mpr ⟨y, hy, hc⟩

theorem flowToHandle_high {l : Label L} {handle : Ty L} {why : Why} {c : Constraint L}
    (hc : c ∈ flowToHandle l handle why) : c.high = l := by
  unfold flowToHandle at hc
  split at hc
  · rw [List.mem_singleton.mp hc]
  · simp at hc

theorem collectOperation_high {h : VarRef (Label L) L} {args : List (VarRef (Label L) L)}
    {c : Constraint L} (hc : c ∈ collectOperation h args) :
    c.high ∈ h.label :: args.map VarRef.label := by
  obtain hc | hc := List.mem_append.mp hc
  · rw [flowToHandle_high hc]
    exact List.mem_cons_self ..
  · obtain ⟨x, hx, hc⟩ := List.mem_flatMap.mp hc
    rw [flowToHandle_high hc]
    exact List.mem_cons_of_mem _ (List.mem_map_of_mem hx)

theorem form_flows {e : Expression (Label L) L}
    (sat : ∀ c ∈ collectExpr e, c.high ∈ e.labels → FlowsTo (c.high.eval ρ) (c.low.eval ρ)) :
    (e.mapLabel (Label.eval ρ)).form.OperandsFlow := by
  obtain ⟨label, yield, form⟩ := e
  cases form with
  | isValid h =>
      refine flowsToHandle_of_satisfied (x := h) .isValidExprHandle fun c hc => ?_
      refine sat c hc ?_
      rw [flowToHandle_high hc]
      simp [Expression.labels, Form.labels]
  | operation name h args =>
      refine operation_flows fun c hc => sat c hc ?_
      have high := collectOperation_high hc
      simp only [Expression.labels, Form.labels, List.mem_cons] at high ⊢
      exact Or.inr high
  | _ => trivial

/-- Satisfied constraints on the labels of operands make operands flow. -/
theorem operandsFlow_of_satisfied (pc : Label L) {s : Statement (Label L) L}
    (sat : ∀ c ∈ collectConstraints pc s, c.high ∈ s.labels →
      FlowsTo (c.high.eval ρ) (c.low.eval ρ)) :
    (s.mapLabel (Label.eval ρ)).OperandsFlow := by
  induction s generalizing pc with
  | letIn l b body ih =>
      simp only [collectConstraints, List.mem_append] at sat
      refine ⟨form_flows fun c hc hl => sat c (Or.inl (Or.inr hc)) ?_, ?_,
        ih _ fun c hc hl => sat c (Or.inr hc) ?_⟩
      · simp only [Statement.labels, List.mem_cons, List.mem_append]
        exact Or.inr (Or.inr (Or.inl hl))
      · refine sat ⟨b.expr.label, b.label, .boundExpression⟩ (Or.inl (Or.inl ?_)) ?_
        · simp [collectBinding]
        · simp [Statement.labels, Expression.labels]
      · simp [Statement.labels, hl]
  | letRemote l b body ih =>
      simp only [collectConstraints, List.mem_append] at sat
      refine ⟨flowsToHandle_of_satisfied (x := b.expr) .letRemoteExprHandle fun c hc => ?_,
        ?_, ih _ fun c hc hl => sat c (Or.inl (Or.inr hc)) ?_⟩
      · refine sat c (Or.inr hc) ?_
        rw [flowToHandle_high hc]
        simp [Statement.labels]
      · refine sat ⟨b.expr.label, b.label, .boundExpression⟩ (Or.inl (Or.inl ?_)) ?_
        · simp [collectBinding]
        · simp [Statement.labels]
      · simp [Statement.labels, hl]
  | operation l name h args =>
      refine operation_flows fun c hc => sat c hc ?_
      have high := collectOperation_high hc
      simp only [Statement.labels, List.mem_cons] at high ⊢
      exact Or.inr high
  | assignment l target e =>
      have h := sat ⟨e.label, target.label, .assignment⟩ (by simp [collectConstraints])
        (by simp [Statement.labels])
      simpa [Statement.mapLabel, Statement.OperandsFlow, Target.label_mapLabel, VarRef.mapLabel]
        using h
  | ifThen l c t e iht ihe =>
      simp only [collectConstraints, List.mem_append] at sat
      refine ⟨iht _ fun c hc hl => sat c (Or.inl hc) ?_, ihe _ fun c hc hl => sat c (Or.inr hc) ?_⟩
      · simp [Statement.labels, hl]
      · simp [Statement.labels, hl]
  | whileLoop l name c body ih =>
      exact ih _ fun c hc hl => sat c hc (by simp [Statement.labels, hl])
  | cons l first rest ihf ihr =>
      simp only [collectConstraints, List.mem_append] at sat
      refine ⟨ihf _ fun c hc hl => sat c (Or.inl hc) ?_, ihr _ fun c hc hl => sat c (Or.inr hc) ?_⟩
      · simp [Statement.labels, hl]
      · simp [Statement.labels, hl]
  | _ => trivial

variable {sorting : Library.ComparisonSort} {host : HostTypes L} {lookup : Lookup (Label L) L}
  {inputs : List (VarName × Ty L)} {body : Parsed.Stmt L} {prog : Statement L L}

/-- An accepted program is typed, and its operands flow. -/
theorem Accepted.typed (h : Accepted sorting host lookup inputs body prog) :
    Typed .concrete host (fun _ => True) (startEnv inputs) prog ∧ prog.OperandsFlow := by
  obtain ⟨ast, hast, hinferred⟩ := h
  have typed := typecheck_typed hast
  have henv : ConcreteEnv (transactionEnv inputs) := transactionEnv_concrete inputs
  obtain ⟨substitutions, out⟩ := (inferLabels_outcome sorting henv typed).2 _ hinferred
  have same : prog = ast.mapLabel (Label.eval (inferredLabel substitutions)) := by
    have h := congrArg (Statement.mapLabel (Label.eval fun _ _ => ⊤)) out.inferred_eq
    rw [Statement.mapLabel_mapLabel, Statement.mapLabel_mapLabel] at h
    simpa [Function.comp_def, Statement.mapLabel_id] using h
  rw [same]
  refine ⟨transactionEnv_eval (inferredLabel substitutions) inputs ▸ typed.eval _, ?_⟩
  refine operandsFlow_of_satisfied (.concrete ⊤) fun c hc hl => ?_
  refine out.satisfied henv typed hc fun x hx missed => absurd ?_ missed
  exact (mem_collectProperLabels sorting).mpr ⟨_, hl, hx⟩

end Accepted

end Inference

end MixT
