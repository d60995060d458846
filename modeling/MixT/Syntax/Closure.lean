import MixT.Syntax.Typecheck

/-! # Properties of the labels of a typed tree

A property that minima keep, and that each binding takes from its bound expression,
holds of every label of a typed tree. -/

namespace MixT

/-- The labels of the bound expression and of the binding, for each binding. -/
def Statement.bindingFlows {Λ L : Type*} : Statement Λ L → List (Λ × Λ)
  | .letIn _ b body => (b.expr.label, b.label) :: bindingFlows body
  | .letRemote _ b body => (b.expr.label, b.label) :: bindingFlows body
  | .ifThen _ _ t e => bindingFlows t ++ bindingFlows e
  | .whileLoop _ _ _ body => bindingFlows body
  | .cons _ first rest => bindingFlows first ++ bindingFlows rest
  | _ => []

section ClosedEnv

variable {L : Type*} {P : Label L → Prop} {env : TypeEnv (Label L) L}

/-- The property holds of every label that an environment gives out. -/
structure ClosedEnv (P : Label L → Prop) (env : TypeEnv (Label L) L) : Prop where
  pc : P env.pcLabel
  bindings : ∀ b ∈ env.bindings, P b.label

theorem ClosedEnv.extend (henv : ClosedEnv P env) {b : TypeBinding (Label L) L}
    (hb : P b.label) : ClosedEnv P (env.extend b) := by
  refine ⟨henv.pc, fun c hc => ?_⟩
  obtain hc | hc := List.mem_append.mp hc
  · exact henv.bindings c hc
  · obtain rfl := List.mem_singleton.mp hc
    exact hb

theorem ClosedEnv.withPc (henv : ClosedEnv P env) {pc : Label L} (hpc : P pc) :
    ClosedEnv P (env.withPc pc) :=
  ⟨hpc, henv.bindings⟩

end ClosedEnv

section Closure

variable {L : Type*} [LinearOrder L] [BoundedOrder L] {host : HostTypes L}
  {P : Label L → Prop}

/-- A property of labels that type checking keeps when it takes minima. -/
structure Closed (P : Label L → Prop) : Prop where
  concrete : ∀ c, P (LabelAlgebra.checking.conc c)
  meet : ∀ a b, P a → P b → P (LabelAlgebra.checking.meet a b)

theorem ClosedEnv.bindingLabel {env : TypeEnv (Label L) L} (closed : Closed P)
    (henv : ClosedEnv P env) {b : TypeBinding (Label L) L} (hb : b ∈ env.bindings) :
    P (b.bindingLabel .checking) := by
  have label := henv.bindings b hb
  unfold TypeBinding.bindingLabel
  split
  · exact closed.meet _ _ label (closed.concrete _)
  · exact label

theorem ClosedEnv.var {env : TypeEnv (Label L) L} (closed : Closed P) (henv : ClosedEnv P env)
    {x : VarRef (Label L) L} (h : TypedVar .checking env x) : P x.label := by
  obtain ⟨b, hb, -, -, -, hlabel⟩ := h
  exact hlabel ▸ henv.bindingLabel closed hb

theorem ClosedEnv.operationLabel {env : TypeEnv (Label L) L} (closed : Closed P)
    (henv : ClosedEnv P env) {h : VarRef (Label L) L} {handleLabel : L}
    {args : List (VarRef (Label L) L)} (hh : P h.label) (hargs : ∀ x ∈ args, P x.label) :
    P (LabelAlgebra.checking.operationLabel env.pcLabel h handleLabel args) := by
  have fold : ∀ (args : List (VarRef (Label L) L)) (acc : Label L), P acc →
      (∀ x ∈ args, P x.label) →
      P (args.foldl (fun acc arg => LabelAlgebra.checking.meet acc arg.label) acc) := by
    intro args
    induction args with
    | nil => exact fun acc hacc _ => hacc
    | cons x rest ih =>
        intro acc hacc hrest
        exact ih _ (closed.meet _ _ hacc (hrest x (List.mem_cons_self ..)))
          fun y hy => hrest y (List.mem_cons_of_mem _ hy)
  have hmin := fold args _
    (closed.meet _ _ (closed.concrete handleLabel) (closed.concrete handleLabel)) hargs
  exact closed.meet _ _ hh (closed.meet _ _ henv.pc hmin)

theorem ClosedEnv.operation {env : TypeEnv (Label L) L} (closed : Closed P)
    (henv : ClosedEnv P env) {label : Label L} {ret : Ty L} {name : OperName}
    {h : VarRef (Label L) L} {args : List (VarRef (Label L) L)}
    (hop : TypedOperation .checking host env label ret name h args) :
    P label ∧ P h.label ∧ ∀ x ∈ args, P x.label := by
  obtain ⟨hh, hargs, handleLabel, -, rfl⟩ := hop
  have hhandle := henv.var closed hh
  have hargs : ∀ x ∈ args, P x.label := fun x hx => henv.var closed (hargs x hx)
  exact ⟨henv.operationLabel closed hhandle hargs, hhandle, hargs⟩

theorem ClosedEnv.expr {env : TypeEnv (Label L) L} (closed : Closed P) (henv : ClosedEnv P env)
    {e : Expression (Label L) L} (h : TypedExpr .checking host env e) : ∀ l ∈ e.labels, P l := by
  obtain ⟨label, yield, form⟩ := e
  cases form with
  | varReference x =>
      obtain h | ⟨-, l, rfl⟩ := h
      · simpa [Expression.labels, Form.labels] using henv.var closed h
      · simpa [Expression.labels, Form.labels] using closed.concrete l
  | fieldReference struct f =>
      obtain ⟨hs, -, rfl⟩ := h
      simpa [Expression.labels, Form.labels] using henv.var closed hs
  | constant i =>
      obtain rfl : label = LabelAlgebra.checking.conc ⊤ := h
      simpa [Expression.labels, Form.labels] using closed.concrete ⊤
  | binOp op l r =>
      obtain ⟨hl, hr, -, rfl⟩ := h
      have hl := henv.var closed hl
      have hr := henv.var closed hr
      simpa [Expression.labels, Form.labels, hl, hr] using closed.meet _ _ hl hr
  | generateTombstone =>
      obtain rfl : label = LabelAlgebra.checking.conc ⊤ := h
      simpa [Expression.labels, Form.labels] using closed.concrete ⊤
  | isValid x =>
      obtain ⟨hx, handleLabel, -, rfl⟩ := h
      have hx := henv.var closed hx
      simpa [Expression.labels, Form.labels, hx] using
        closed.meet _ _ (closed.meet _ _ henv.pc hx) (closed.concrete handleLabel)
  | endorse l x =>
      obtain ⟨hx, rfl⟩ := h
      simpa [Expression.labels, Form.labels, henv.var closed hx] using closed.concrete l
  | operation name x args =>
      obtain ⟨hlabel, hhandle, hargs⟩ := henv.operation closed h
      simpa [Expression.labels, Form.labels, hlabel, hhandle] using hargs

theorem ClosedEnv.target {env : TypeEnv (Label L) L} (closed : Closed P) (henv : ClosedEnv P env)
    {t : Target (Label L) L} (h : TypedTarget .checking host env t) :
    P t.label ∧ ∀ l ∈ t.labels, P l := by
  cases t with
  | var x =>
      have hx := henv.var closed h
      simpa [Target.label, Target.labels] using hx
  | field label yield struct f =>
      obtain ⟨hs, -, rfl⟩ := h
      have hs := henv.var closed hs
      simpa [Target.label, Target.labels] using hs

/-- A closed property that every binding takes from its bound expression holds of
every label of a typed tree. -/
theorem Typed.labels_closed {binder : Label L → Prop} (closed : Closed P)
    {env : TypeEnv (Label L) L} (henv : ClosedEnv P env) {s : Statement (Label L) L}
    (binders : ∀ p ∈ s.bindingFlows, P p.1 → P p.2)
    (h : Typed .checking host binder env s) : ∀ l ∈ s.labels, P l := by
  induction s generalizing env with
  | letIn label b body ih =>
      obtain ⟨he, -, -, -, rfl, hbody⟩ := h
      have hexpr := henv.expr closed he
      have hbound : P b.expr.label := hexpr _ (by simp [Expression.labels])
      have hb : P b.label := binders _ (List.mem_cons_self ..) hbound
      have hbody := ih (henv.extend hb) (fun p hp => binders p (List.mem_cons_of_mem _ hp)) hbody
      simp only [Statement.labels, List.mem_cons, List.mem_append, or_imp, forall_and, forall_eq]
      exact ⟨closed.meet _ _ hbound henv.pc, hb, hexpr, hbody⟩
  | letRemote label b body ih =>
      obtain ⟨he, -, handleLabel, ops, -, rfl, hbody⟩ := h
      have hbound := henv.var closed he
      have hb : P b.label := binders _ (List.mem_cons_self ..) hbound
      have hext : ClosedEnv P ((env.withPc (LabelAlgebra.checking.meet env.pcLabel b.expr.label)).extend
          (letRemoteBinding .checking handleLabel b)) :=
        (henv.withPc (closed.meet _ _ henv.pc hbound)).extend
          (closed.meet _ _ hbound (closed.concrete handleLabel))
      have hbody := ih hext (fun p hp => binders p (List.mem_cons_of_mem _ hp)) hbody
      simp only [Statement.labels, List.mem_cons, or_imp, forall_and, forall_eq]
      exact ⟨closed.meet _ _ henv.pc (closed.concrete handleLabel), hb, hbound, hbody⟩
  | operation label name x args =>
      obtain ⟨ret, hop⟩ := h
      obtain ⟨hlabel, hhandle, hargs⟩ := henv.operation closed hop
      simpa [Statement.labels, hlabel, hhandle] using hargs
  | assignment label target e =>
      obtain ⟨ht, he, -, rfl⟩ := h
      obtain ⟨hlabel, hlabels⟩ := henv.target closed ht
      have he := henv.var closed he
      simp only [Statement.labels, List.mem_cons, List.mem_append, List.not_mem_nil, or_false,
        or_imp, forall_and, forall_eq]
      exact ⟨closed.meet _ _ (closed.meet _ _ he hlabel) henv.pc, hlabels, he⟩
  | ret label e =>
      obtain ⟨he, rfl⟩ := h
      simpa [Statement.labels, henv.var closed he] using closed.concrete ⊥
  | accompanyWrite label target =>
      obtain ⟨ht, e, he, rfl⟩ := h
      obtain ⟨hlabel, hlabels⟩ := henv.target closed ht
      simp only [Statement.labels, List.mem_cons, or_imp, forall_and, forall_eq]
      exact ⟨closed.meet _ _ (closed.meet _ _ (henv.var closed he) hlabel) henv.pc, hlabels⟩
  | writeTombstone label e =>
      obtain ⟨-, he, l, rfl⟩ := h
      simpa [Statement.labels, he] using closed.meet _ _ (closed.concrete l) henv.pc
  | ifThen label c t e iht ihe =>
      obtain ⟨hc, -, rfl, ht, he⟩ := h
      have hc := henv.var closed hc
      have hpc := henv.withPc (closed.meet _ _ hc henv.pc)
      have ht := iht hpc (fun p hp => binders p (List.mem_append_left _ hp)) ht
      have he := ihe hpc (fun p hp => binders p (List.mem_append_right _ hp)) he
      simp only [Statement.labels, List.mem_cons, List.mem_append, or_imp, forall_and, forall_eq]
      exact ⟨closed.meet _ _ henv.pc hc, hc, ht, he⟩
  | whileLoop label name c body ih =>
      obtain ⟨hc, -, rfl, hbody⟩ := h
      have hc := henv.var closed hc
      have hbody := ih (henv.withPc (closed.meet _ _ hc henv.pc)) binders hbody
      simp only [Statement.labels, List.mem_cons, or_imp, forall_and, forall_eq]
      exact ⟨closed.meet _ _ henv.pc hc, hc, hbody⟩
  | nil label =>
      simpa [Statement.labels] using (show label = env.pcLabel from h) ▸ henv.pc
  | cons label first rest ihf ihr =>
      obtain ⟨rfl, hf, hr⟩ := h
      have hf := ihf henv (fun p hp => binders p (List.mem_append_left _ hp)) hf
      have hr := ihr henv (fun p hp => binders p (List.mem_append_right _ hp)) hr
      simp only [Statement.labels, List.mem_cons, List.mem_append, or_imp, forall_and, forall_eq]
      exact ⟨henv.pc, hf, hr⟩

theorem Typed.binders {binder : Label L → Prop} {env : TypeEnv (Label L) L}
    {s : Statement (Label L) L} (h : Typed .checking host binder env s) :
    ∀ p ∈ s.bindingFlows, binder p.2 := by
  induction s generalizing env with
  | letIn label b body ih =>
      obtain ⟨-, -, -, hb, -, hbody⟩ := h
      simp only [Statement.bindingFlows, List.mem_cons, forall_eq_or_imp]
      exact ⟨hb, ih hbody⟩
  | letRemote label b body ih =>
      obtain ⟨-, hb, handleLabel, ops, -, -, hbody⟩ := h
      simp only [Statement.bindingFlows, List.mem_cons, forall_eq_or_imp]
      exact ⟨hb, ih hbody⟩
  | ifThen label c t e iht ihe =>
      obtain ⟨-, -, -, ht, he⟩ := h
      simp only [Statement.bindingFlows, List.mem_append, or_imp, forall_and]
      exact ⟨iht ht, ihe he⟩
  | whileLoop label name c body ih =>
      obtain ⟨-, -, -, hbody⟩ := h
      exact ih hbody
  | cons label first rest ihf ihr =>
      obtain ⟨-, hf, hr⟩ := h
      simp only [Statement.bindingFlows, List.mem_append, or_imp, forall_and]
      exact ⟨ihf hf, ihr hr⟩
  | _ => simp [Statement.bindingFlows]

end Closure

end MixT
