import MixT.Inference.Run
import MixT.Syntax.Closure
import Mathlib.Algebra.Order.Ring.Int
import Mathlib.Order.Fin.Basic

/-! # Soundness of label inference

Inference is sound when it reports a violation or puts labels that satisfy every
collected constraint. The solver gives no turn to a source label that is on no node
of the tree, so soundness depends on another label reaching the same target. -/

namespace MixT

namespace Label

variable {L : Type*} [LinearOrder L]

/-- No minimum of two concrete labels is left. -/
def Normal : Label L → Prop
  | .minOf a b => Normal a ∧ Normal b ∧ resolve a b = .minOf a b
  | _ => True

theorem resolve_cases (a b : Label L) :
    resolve a b = .minOf a b ∨ ∃ x y, a = .concrete x ∧ b = .concrete y ∧
      resolve a b = .concrete (min x y) := by
  cases a <;> cases b <;> simp [resolve, labelsMinOf_eq]

theorem resolve_normal {a b : Label L} (ha : a.Normal) (hb : b.Normal) : (resolve a b).Normal := by
  obtain h | ⟨x, y, -, -, h⟩ := resolve_cases a b
  · rw [h]
    exact ⟨ha, hb, h⟩
  · rw [h]
    trivial

theorem labelReplace_resolve (s d : Int) (c : L) (a b : Label L) :
    labelReplace s d (.concrete c) (resolve a b) =
      resolve (labelReplace s d (.concrete c) a) (labelReplace s d (.concrete c) b) := by
  obtain h | ⟨x, y, rfl, rfl, -⟩ := resolve_cases a b
  · rw [h]
    rfl
  · rfl

theorem temp_mem_leaves_resolve {a b : Label L} {s d : Int} (h : .temp s d ∈ (resolve a b).leaves) :
    .temp s d ∈ a.leaves ∨ .temp s d ∈ b.leaves := by
  obtain hr | ⟨x, y, -, -, hr⟩ := resolve_cases a b
  · simpa [hr, leaves] using h
  · simp [hr, leaves] at h

variable [BoundedOrder L]

theorem resolvedMin_cases (a b : Label L) :
    resolvedMin a b = .concrete ⊥ ∨ resolvedMin a b = resolve a b := by
  unfold resolvedMin
  split <;> simp

end Label

namespace Inference

open Library

section Collapse

variable {L : Type*} [LinearOrder L]

/-- The flows of the collapsed constraints. -/
def Flow (constraints : List (Constraint L)) (u v : Label L) : Prop :=
  ∃ c ∈ constraints, u ∈ c.high.leaves ∧ collapseTarget c.low = .ok v

/-- The flows are those of the set of constraints. -/
theorem flow_congr {constraints constraints' : List (Constraint L)}
    (same : ∀ c, c ∈ constraints' ↔ c ∈ constraints) : Flow constraints' = Flow constraints := by
  ext u v
  simp only [Flow, same]

theorem flow_source {constraints : List (Constraint L)} {u v : Label L}
    (h : Flow constraints u v) : u.isMinOf = false := by
  obtain ⟨c, -, hu, -⟩ := h
  exact Label.mem_leaves_not_minOf hu

theorem pickMinMatch_mem {a b : Option L} {l : L} (h : pickMinMatch a b = some l) :
    a = some l ∨ b = some l := by
  cases a <;> cases b <;> simp only [pickMinMatch] at h
  · simp at h
  · exact Or.inr h
  · exact Or.inl h
  · split at h
    · exact Or.inl h
    · exact Or.inr h

theorem findConcreteLabel_mem {l : Label L} {o : Option L} (h : findConcreteLabel l = .ok o) :
    (∃ b, o = some b ∧ .concrete b ∈ l.leaves) ∨ o = none ∧ l.isTemp = true := by
  induction l generalizing o with
  | concrete a =>
      obtain rfl : some a = o := by simpa [findConcreteLabel] using h
      exact Or.inl ⟨a, rfl, by simp [Label.leaves]⟩
  | temp s d =>
      obtain rfl : none = o := by simpa [findConcreteLabel] using h
      exact Or.inr ⟨rfl, rfl⟩
  | minOf a b iha ihb =>
      obtain ⟨oa, ha, h⟩ := except_bind_ok h
      obtain ⟨ob, hb, h⟩ := except_bind_ok h
      split at h
      · rename_i x hx
        obtain rfl : some x = o := by simpa using h
        refine Or.inl ⟨x, rfl, ?_⟩
        obtain rfl | rfl := pickMinMatch_mem hx
        · obtain ⟨y, hy, hmem⟩ | ⟨hn, -⟩ := iha ha
          · obtain rfl : x = y := by simpa using hy
            exact List.mem_append_left _ hmem
          · simp at hn
        · obtain ⟨y, hy, hmem⟩ | ⟨hn, -⟩ := ihb hb
          · obtain rfl : x = y := by simpa using hy
            exact List.mem_append_right _ hmem
          · simp at hn
      · simp at h

/-- The collapsed target is one of the labels that the target is the minimum of. -/
theorem collapseTarget_mem {l v : Label L} (h : collapseTarget l = .ok v) : v ∈ l.leaves := by
  obtain ⟨o, ho, h⟩ := except_bind_ok h
  obtain ⟨b, rfl, hb⟩ | ⟨rfl, htemp⟩ := findConcreteLabel_mem ho
  · cases l with
    | concrete a =>
        obtain rfl : b = a := by simpa [Label.leaves] using hb
        obtain rfl : _ = v := by simpa using h
        simp [Label.leaves]
    | temp s d => simp [Label.leaves] at hb
    | minOf x y =>
        obtain rfl : _ = v := by simpa using h
        exact hb
  · cases l with
    | temp s d =>
        obtain rfl : _ = v := by simpa using h
        simp [Label.leaves]
    | _ => simp [Label.isTemp] at htemp

theorem collapseTarget_temp (s d : Int) :
    collapseTarget (.temp s d : Label L) = .ok (.temp s d) := rfl

theorem collapseTarget_ok {l : Label L} {o : Option L} (h : findConcreteLabel l = .ok o) :
    ∃ v, collapseTarget l = .ok v := by
  unfold collapseTarget
  rw [h]
  obtain ⟨b, rfl, -⟩ | ⟨rfl, -⟩ := findConcreteLabel_mem h
  · cases l <;> exact ⟨_, rfl⟩
  · cases l <;> exact ⟨_, rfl⟩

/-- Where every target can be collapsed, the result has the flows and no minimum. -/
theorem collapseConstraints_ok {constraints : List (Constraint L)}
    (targets : ∀ c ∈ constraints, ∃ v, collapseTarget c.low = .ok v) :
    ∃ collapsed, collapseConstraints constraints = .ok collapsed ∧
      ∀ u v, (∃ why, ⟨u, v, why⟩ ∈ collapsed) ↔ Flow constraints u v := by
  induction constraints with
  | nil => exact ⟨[], rfl, by simp [Flow]⟩
  | cons c rest ih =>
      obtain ⟨w, hw⟩ := targets c (List.mem_cons_self ..)
      obtain ⟨collapsed, hrest, hflow⟩ := ih fun d hd => targets d (List.mem_cons_of_mem _ hd)
      refine ⟨c.high.leaves.map (fun source => ⟨source, w, c.why⟩) ++ collapsed, ?_, ?_⟩
      · simp only [collapseConstraints, hw, hrest]
        rfl
      · intro u v
        have step : Flow (c :: rest) u v ↔
            (u ∈ c.high.leaves ∧ w = v) ∨ Flow rest u v := by
          simp [Flow, hw]
        rw [step, ← hflow]
        simp only [List.mem_append, List.mem_map, Constraint.mk.injEq]
        constructor
        · rintro ⟨why, ⟨x, hx, rfl, rfl, rfl⟩ | hmem⟩
          · exact Or.inl ⟨hx, rfl⟩
          · exact Or.inr ⟨why, hmem⟩
        · rintro (⟨hu, rfl⟩ | ⟨why, hmem⟩)
          · exact ⟨c.why, Or.inl ⟨u, hu, rfl, rfl, rfl⟩⟩
          · exact ⟨why, Or.inr hmem⟩

theorem applySubstitutions_resolve {substitutions : List (L × Int × Int)} (a b : Label L) :
    applySubstitutions substitutions (Label.resolve a b) =
      Label.resolve (applySubstitutions substitutions a) (applySubstitutions substitutions b) := by
  induction substitutions with
  | nil => rfl
  | cons new rest ih =>
      have step : ∀ l : Label L, applySubstitutions (new :: rest) l =
          Label.labelReplace new.2.1 new.2.2 (.concrete new.1) (applySubstitutions rest l) :=
        fun l => rfl
      rw [step, step, step, ih, Label.labelReplace_resolve]

/-- The constraints that the solver starts from. -/
theorem solving_start {collected : List L} {constraints collapsed : List (Constraint L)}
    (hflow : ∀ u v, (∃ why, ⟨u, v, why⟩ ∈ collapsed) ↔ Flow constraints u v) :
    Solving (Flow constraints) collected [] (minimizeConstraints collapsed) collected := by
  have mem_flow : ∀ c ∈ minimizeConstraints collapsed, Flow constraints c.high c.low :=
    fun c hc => (hflow c.high c.low).mp ⟨c.why, (mem_minimizeConstraints.mp hc).1⟩
  refine ⟨?_, ?_, ?_, by simp⟩
  · intro u v huv _
    obtain ⟨why, hmem⟩ := (hflow u v).mpr huv
    obtain reflexive | hmem := minimizeConstraints_kept hmem
    · exact Or.inr (Or.inl reflexive)
    · exact Or.inr (Or.inr ⟨why, hmem⟩)
  · intro c hc
    have hc := mem_flow c hc
    have source := flow_source hc
    obtain ⟨high, low, why⟩ := c
    cases high with
    | concrete x => exact fun hx => Or.inl ⟨hx, .direct hc⟩
    | temp s d => exact Or.inl hc
    | minOf a b => simp [Label.isMinOf] at source
  · intro c hc
    have hc := mem_flow c hc
    obtain ⟨d, -, -, hlow⟩ := hc
    exact ⟨flow_source (mem_flow c ‹_›), Label.mem_leaves_not_minOf (collapseTarget_mem hlow)⟩

end Collapse

section Collected

variable {L : Type*} [LinearOrder L] [BoundedOrder L] {P : Label L → Prop}

theorem mem_flowToHandle {source : Label L} {t : Ty L} {why : Why} {c : Constraint L}
    (h : c ∈ flowToHandle source t why) : c.high = source ∧ ∃ x, c.low = .concrete x := by
  unfold flowToHandle at h
  split at h
  · rename_i x _
    obtain rfl := List.mem_singleton.mp h
    exact ⟨rfl, x, rfl⟩
  · simp at h

theorem mem_collectOperation {hd : VarRef (Label L) L} {args : List (VarRef (Label L) L)}
    {c : Constraint L} (h : c ∈ collectOperation hd args) :
    (c.high = hd.label ∨ c.high ∈ args.map VarRef.label) ∧ ∃ x, c.low = .concrete x := by
  obtain h | h := List.mem_append.mp h
  · obtain ⟨hh, hl⟩ := mem_flowToHandle h
    exact ⟨Or.inl hh, hl⟩
  · obtain ⟨arg, harg, h⟩ := List.mem_flatMap.mp h
    obtain ⟨hh, hl⟩ := mem_flowToHandle h
    exact ⟨Or.inr (hh ▸ List.mem_map_of_mem harg), hl⟩

theorem mem_collectExpr {e : Expression (Label L) L} {c : Constraint L} (h : c ∈ collectExpr e) :
    c.high ∈ e.labels ∧ ∃ x, c.low = .concrete x := by
  unfold collectExpr at h
  split at h
  · rename_i x hx
    obtain ⟨hh, hl⟩ := mem_flowToHandle h
    exact ⟨by simp [Expression.labels, hx, Form.labels, hh], hl⟩
  · rename_i name x args hx
    obtain ⟨hh, hl⟩ := mem_collectOperation h
    refine ⟨?_, hl⟩
    simp only [Expression.labels, hx, Form.labels, List.mem_cons]
    tauto
  · simp at h

theorem mem_collectConstraints_letIn {pc label : Label L}
    {b : Binding (Label L) L (Expression (Label L) L)} {body : Statement (Label L) L}
    {c : Constraint L} :
    c ∈ collectConstraints pc (.letIn label b body) ↔
      (c = ⟨b.expr.label, b.label, .boundExpression⟩ ∨ c = ⟨pc, b.label, .boundExpressionPc⟩) ∨
        c ∈ collectExpr b.expr ∨ c ∈ collectConstraints pc body := by
  simp [collectConstraints, collectBinding, or_assoc]

theorem mem_collectConstraints_letRemote {pc label : Label L}
    {b : Binding (Label L) L (VarRef (Label L) L)} {body : Statement (Label L) L}
    {c : Constraint L} :
    c ∈ collectConstraints pc (.letRemote label b body) ↔
      (c = ⟨b.expr.label, b.label, .boundExpression⟩ ∨
        c = ⟨minOfHandle (.minOf pc b.expr.label) b.expr.yield, b.label, .boundExpressionPc⟩) ∨
        c ∈ collectConstraints pc body ∨
          c ∈ flowToHandle b.expr.label b.expr.yield .letRemoteExprHandle := by
  simp [collectConstraints, collectBinding, or_assoc]

/-- The sources of the constraints are made of labels of the tree, of handles and of
the environment. -/
theorem collectConstraints_high {pc : Label L} {s : Statement (Label L) L}
    (concrete : ∀ c, P (.concrete c)) (minOf : ∀ a b, P a → P b → P (.minOf a b)) (hpc : P pc)
    (labels : ∀ l ∈ s.labels, P l) : ∀ c ∈ collectConstraints pc s, P c.high := by
  induction s generalizing pc with
  | letIn label b body ih =>
      simp only [Statement.labels, List.mem_cons, List.mem_append, or_imp, forall_and,
        forall_eq] at labels
      obtain ⟨-, -, hexpr, hbody⟩ := labels
      intro c hc
      obtain (rfl | rfl) | hc | hc := mem_collectConstraints_letIn.mp hc
      · exact hexpr _ (by simp [Expression.labels])
      · exact hpc
      · exact hexpr _ (mem_collectExpr hc).1
      · exact ih hpc hbody c hc
  | letRemote label b body ih =>
      simp only [Statement.labels, List.mem_cons, or_imp, forall_and, forall_eq] at labels
      obtain ⟨-, -, hbound, hbody⟩ := labels
      intro c hc
      obtain (rfl | rfl) | hc | hc := mem_collectConstraints_letRemote.mp hc
      · exact hbound
      · have lowered := minOf _ _ hpc hbound
        show P (minOfHandle _ _)
        unfold minOfHandle
        split
        · exact minOf _ _ lowered (concrete _)
        · exact lowered
      · exact ih hpc hbody c hc
      · exact (mem_flowToHandle hc).1 ▸ hbound
  | operation label name x args =>
      intro c hc
      obtain h | h := (mem_collectOperation hc).1
      · exact labels _ (by simp [Statement.labels, h])
      · exact labels _ (by simp only [Statement.labels, List.mem_cons]; tauto)
  | assignment label target e =>
      intro c hc
      simp only [collectConstraints, List.mem_cons, List.not_mem_nil, or_false] at hc
      obtain rfl | rfl := hc
      · exact labels _ (by simp [Statement.labels])
      · exact hpc
  | ifThen label x t e iht ihe =>
      simp only [Statement.labels, List.mem_cons, List.mem_append, or_imp, forall_and,
        forall_eq] at labels
      obtain ⟨hlabel, -, ht, he⟩ := labels
      intro c hc
      obtain hc | hc := List.mem_append.mp hc
      · exact iht (minOf _ _ hpc hlabel) ht c hc
      · exact ihe (minOf _ _ hpc hlabel) he c hc
  | whileLoop label name x body ih =>
      simp only [Statement.labels, List.mem_cons, or_imp, forall_and, forall_eq] at labels
      obtain ⟨hlabel, -, hbody⟩ := labels
      exact ih (minOf _ _ hpc hlabel) hbody
  | cons label first rest ihf ihr =>
      simp only [Statement.labels, List.mem_cons, List.mem_append, or_imp, forall_and,
        forall_eq] at labels
      obtain ⟨-, hf, hr⟩ := labels
      intro c hc
      obtain hc | hc := List.mem_append.mp hc
      · exact ihf hpc hf c hc
      · exact ihr hpc hr c hc
  | _ => simp [collectConstraints]

/-- The target of a constraint is a label of the tree or of a handle. -/
theorem collectConstraints_low {pc : Label L} {s : Statement (Label L) L} {c : Constraint L}
    (h : c ∈ collectConstraints pc s) : c.low ∈ s.labels ∨ ∃ x, c.low = .concrete x := by
  induction s generalizing pc with
  | letIn label b body ih =>
      obtain (rfl | rfl) | h | h := mem_collectConstraints_letIn.mp h
      · simp [Statement.labels]
      · simp [Statement.labels]
      · exact Or.inr (mem_collectExpr h).2
      · obtain hbody | hx := ih h
        · exact Or.inl (by simp [Statement.labels, hbody])
        · exact Or.inr hx
  | letRemote label b body ih =>
      obtain (rfl | rfl) | h | h := mem_collectConstraints_letRemote.mp h
      · simp [Statement.labels]
      · simp [Statement.labels]
      · obtain hbody | hx := ih h
        · exact Or.inl (by simp [Statement.labels, hbody])
        · exact Or.inr hx
      · exact Or.inr (mem_flowToHandle h).2
  | operation label name x args => exact Or.inr (mem_collectOperation h).2
  | assignment label target e =>
      have hlow : c.low = target.label := by
        simp only [collectConstraints, List.mem_cons, List.not_mem_nil, or_false] at h
        obtain rfl | rfl := h <;> rfl
      left
      rw [hlow]
      cases target <;> simp [Statement.labels, Target.labels, Target.label]
  | ifThen label x t e iht ihe =>
      obtain h | h := List.mem_append.mp h
      · obtain hbody | hx := iht h
        · exact Or.inl (by simp [Statement.labels, hbody])
        · exact Or.inr hx
      · obtain hbody | hx := ihe h
        · exact Or.inl (by simp [Statement.labels, hbody])
        · exact Or.inr hx
  | whileLoop label name x body ih =>
      obtain hbody | hx := ih h
      · exact Or.inl (by simp [Statement.labels, hbody])
      · exact Or.inr hx
  | cons label first rest ihf ihr =>
      obtain h | h := List.mem_append.mp h
      · obtain hbody | hx := ihf h
        · exact Or.inl (by simp [Statement.labels, hbody])
        · exact Or.inr hx
      · obtain hbody | hx := ihr h
        · exact Or.inl (by simp [Statement.labels, hbody])
        · exact Or.inr hx
  | _ => simp [collectConstraints] at h

/-- Each bound expression flows to its binding. -/
theorem bindingFlows_collected (pc : Label L) {s : Statement (Label L) L} {p : Label L × Label L}
    (h : p ∈ s.bindingFlows) :
    ⟨p.1, p.2, .boundExpression⟩ ∈ collectConstraints pc s ∧ p.1 ∈ s.labels := by
  induction s generalizing pc with
  | letIn label b body ih =>
      obtain rfl | h := List.mem_cons.mp h
      · simp [collectConstraints, collectBinding, Statement.labels, Expression.labels]
      · obtain ⟨hc, hl⟩ := ih pc h
        simp [collectConstraints, hc, Statement.labels, hl]
  | letRemote label b body ih =>
      obtain rfl | h := List.mem_cons.mp h
      · simp [collectConstraints, collectBinding, Statement.labels]
      · obtain ⟨hc, hl⟩ := ih pc h
        simp [collectConstraints, hc, Statement.labels, hl]
  | ifThen label x t e iht ihe =>
      obtain h | h := List.mem_append.mp h
      · obtain ⟨hc, hl⟩ := iht (.minOf pc label) h
        simp [collectConstraints, hc, Statement.labels, hl]
      · obtain ⟨hc, hl⟩ := ihe (.minOf pc label) h
        simp [collectConstraints, hc, Statement.labels, hl]
  | whileLoop label name x body ih =>
      obtain ⟨hc, hl⟩ := ih (.minOf pc label) h
      simp [collectConstraints, hc, Statement.labels, hl]
  | cons label first rest ihf ihr =>
      obtain h | h := List.mem_append.mp h
      · obtain ⟨hc, hl⟩ := ihf pc h
        simp [collectConstraints, hc, Statement.labels, hl]
      · obtain ⟨hc, hl⟩ := ihr pc h
        simp [collectConstraints, hc, Statement.labels, hl]
  | _ => simp [Statement.bindingFlows] at h

/-- A property that the labels of variables have is one that every target has. A
dereferenced pointer brings a label of its own, from a constraint of which `S` holds. -/
theorem typed_targets {host : HostTypes L} {binder : Label L → Prop} {S : Constraint L → Prop}
    (concrete : ∀ c, P (LabelAlgebra.checking.conc c))
    (remote : ∀ a c, P a → S ⟨a, .concrete c, .letRemoteExprHandle⟩ →
      P (LabelAlgebra.checking.meet (LabelAlgebra.checking.meet a (LabelAlgebra.checking.conc c))
        (LabelAlgebra.checking.conc c)))
    (binders : ∀ l, binder l → P l) {env : TypeEnv (Label L) L}
    (henv : ∀ b ∈ env.bindings, P (b.bindingLabel .checking)) {s : Statement (Label L) L}
    (h : Typed .checking host binder env s) {pc : Label L}
    (met : ∀ c ∈ collectConstraints pc s, S c) :
    ∀ c ∈ collectConstraints pc s, P c.low := by
  have var : ∀ {env : TypeEnv (Label L) L} {x : VarRef (Label L) L},
      (∀ b ∈ env.bindings, P (b.bindingLabel .checking)) → TypedVar .checking env x →
      P x.label := by
    intro env x henv hx
    obtain ⟨b, hb, -, -, -, hlabel⟩ := hx
    rw [hlabel]
    exact henv b hb
  have extend : ∀ {env : TypeEnv (Label L) L} {b : TypeBinding (Label L) L},
      (∀ b ∈ env.bindings, P (b.bindingLabel .checking)) → P (b.bindingLabel .checking) →
      ∀ c ∈ env.bindings ++ [b], P (c.bindingLabel .checking) := by
    intro env b henv hb c hc
    obtain hc | hc := List.mem_append.mp hc
    · exact henv c hc
    · exact (List.mem_singleton.mp hc) ▸ hb
  induction s generalizing env pc with
  | letIn label b body ih =>
      obtain ⟨-, -, -, hb, -, hbody⟩ := h
      have hb := binders _ hb
      intro c hc
      obtain (rfl | rfl) | hc | hc := mem_collectConstraints_letIn.mp hc
      · exact hb
      · exact hb
      · obtain ⟨x, hx⟩ := (mem_collectExpr hc).2
        exact hx ▸ concrete x
      · have bound : P ((letBinding b).bindingLabel .checking) := hb
        refine ih (extend henv bound) hbody (fun c hc => met c ?_) c hc
        exact List.mem_append_right _ hc
  | letRemote label b body ih =>
      obtain ⟨he, hb, handleLabel, ops, hyield, -, hbody⟩ := h
      have hb := binders _ hb
      have pointer : P ((letRemoteBinding .checking handleLabel b).bindingLabel .checking) := by
        have hlabel : (letRemoteBinding .checking handleLabel b).bindingLabel .checking =
            LabelAlgebra.checking.meet (LabelAlgebra.checking.meet b.expr.label
              (LabelAlgebra.checking.conc handleLabel))
              (LabelAlgebra.checking.conc handleLabel) := by
          simp [TypeBinding.bindingLabel, letRemoteBinding, hyield]
        rw [hlabel]
        apply remote _ _ (var henv he)
        apply met
        simp [collectConstraints, flowToHandle, hyield, Ty.label]
      have bodyMet : ∀ c ∈ collectConstraints pc body, S c := by
        intro c hc
        apply met
        simp [collectConstraints, hc]
      intro c hc
      obtain (rfl | rfl) | hc | hc := mem_collectConstraints_letRemote.mp hc
      · exact hb
      · exact hb
      · exact ih (extend henv pointer) hbody bodyMet c hc
      · obtain ⟨x, hx⟩ := (mem_flowToHandle hc).2
        exact hx ▸ concrete x
  | operation label name x args =>
      intro c hc
      obtain ⟨x, hx⟩ := (mem_collectOperation hc).2
      exact hx ▸ concrete x
  | assignment label target e =>
      obtain ⟨ht, -, -, -⟩ := h
      have htarget : P target.label := by
        cases target with
        | var x => exact var henv ht
        | field label yield struct f =>
            obtain ⟨hs, -, rfl⟩ := ht
            exact var henv hs
      intro c hc
      simp only [collectConstraints, List.mem_cons, List.not_mem_nil, or_false] at hc
      obtain rfl | rfl := hc
      · exact htarget
      · exact htarget
  | ifThen label x t e iht ihe =>
      obtain ⟨-, -, -, ht, he⟩ := h
      have lowered : ∀ b ∈ (env.withPc (LabelAlgebra.checking.meet x.label env.pcLabel)).bindings,
          P (b.bindingLabel .checking) := henv
      intro c hc
      obtain hc | hc := List.mem_append.mp hc
      · exact iht lowered ht (fun c hc => met c (List.mem_append_left _ hc)) c hc
      · exact ihe lowered he (fun c hc => met c (List.mem_append_right _ hc)) c hc
  | whileLoop label name x body ih =>
      obtain ⟨-, -, -, hbody⟩ := h
      have lowered : ∀ b ∈ (env.withPc (LabelAlgebra.checking.meet x.label env.pcLabel)).bindings,
          P (b.bindingLabel .checking) := henv
      exact ih lowered hbody met
  | cons label first rest ihf ihr =>
      obtain ⟨-, hf, hr⟩ := h
      intro c hc
      obtain hc | hc := List.mem_append.mp hc
      · exact ihf henv hf (fun c hc => met c (List.mem_append_left _ hc)) c hc
      · exact ihr henv hr (fun c hc => met c (List.mem_append_right _ hc)) c hc
  | _ => simp [collectConstraints]

end Collected

section Sound

variable {L : Type*} [LinearOrder L] [BoundedOrder L] (sorting : Library.ComparisonSort)

/-- Inference reports a flow violation, or puts concrete labels for the temporary ones
such that the source of every constraint flows to its target. -/
def InferenceSound (ast : Statement (Label L) L) : Prop :=
  match inferLabels sorting ast with
  | .error e => e = .flowViolation
  | .ok inferred => ∃ ρ, inferred = (ast.mapLabel (Label.eval ρ)).mapLabel .concrete ∧
      ∀ c ∈ collectConstraints (.concrete ⊤) ast, FlowsTo (c.high.eval ρ) (c.low.eval ρ)

/-- The target is bounded by a concrete label below `x`: by one of its own, or by a
collected label that reaches one of its temporary labels. -/
def Bounded (flow : Label L → Label L → Prop) (collected : List L) (x : L) (low : Label L) : Prop :=
  (∃ y ∈ low.properLabels, FlowsTo x y) ∨
    ∃ s d, .temp s d ∈ low.leaves ∧ ∃ y ∈ collected, FlowsTo x y ∧ Reaches flow y (.temp s d)

/-- Each source that is on no node of the tree has a target that is bounded below it. -/
def MissedSourcesBounded (ast : Statement (Label L) L) : Prop :=
  ∀ c ∈ collectConstraints (.concrete ⊤) ast, ∀ x ∈ c.high.properLabels,
    x ∉ collectProperLabels sorting ast →
    Bounded (Flow (collectConstraints (.concrete ⊤) ast)) (collectProperLabels sorting ast) x c.low

variable {sorting} {host : HostTypes L} {ast : Statement (Label L) L} {env : TypeEnv (Label L) L}

/-- Each temporary label of the list is reached by a collected label. -/
def Grounded (flow : Label L → Label L → Prop) (collected : List L) (l : Label L) : Prop :=
  ∀ s d, .temp s d ∈ l.leaves → ∃ x ∈ collected, Reaches flow x (.temp s d)

theorem grounded_closed {flow : Label L → Label L → Prop} {collected : List L} :
    Closed (Grounded flow collected) := by
  constructor
  · intro c s d h
    simp [LabelAlgebra.checking, Label.leaves] at h
  · intro a b ha hb s d h
    obtain hr | hr := Label.resolvedMin_cases a b
    · simp [LabelAlgebra.checking, hr, Label.leaves] at h
    · simp only [LabelAlgebra.checking, hr] at h
      obtain h | h := Label.temp_mem_leaves_resolve h
      · exact ha s d h
      · exact hb s d h

theorem normal_closed : Closed (Label.Normal (L := L)) := by
  constructor
  · intro c
    trivial
  · intro a b ha hb
    obtain hr | hr := Label.resolvedMin_cases a b
    · simp [LabelAlgebra.checking, hr, Label.Normal]
    · simp only [LabelAlgebra.checking, hr]
      exact Label.resolve_normal ha hb

/-- The environment of a transaction has concrete labels only. -/
structure ConcreteEnv (env : TypeEnv (Label L) L) : Prop where
  pc : ∃ c, env.pcLabel = .concrete c
  bindings : ∀ b ∈ env.bindings, ∃ c, b.label = .concrete c

theorem transactionEnv_concrete (inputs : List (VarName × Ty L)) :
    ConcreteEnv (transactionEnv inputs) := by
  refine ⟨⟨⊤, rfl⟩, fun b hb => ?_⟩
  simp only [transactionEnv, builtinBindings, inputBindings, List.mem_append, List.mem_cons,
    List.not_mem_nil, or_false, List.mem_map] at hb
  obtain (rfl | rfl | rfl) | ⟨input, -, rfl⟩ := hb
  · exact ⟨⊤, rfl⟩
  · exact ⟨⊤, rfl⟩
  · exact ⟨⊥, rfl⟩
  · exact ⟨⊤, rfl⟩

theorem ConcreteEnv.closed {P : Label L → Prop} (henv : ConcreteEnv env) (closed : Closed P) :
    ClosedEnv P env := by
  constructor
  · obtain ⟨c, hc⟩ := henv.pc
    exact hc ▸ closed.concrete c
  · intro b hb
    obtain ⟨c, hc⟩ := henv.bindings b hb
    exact hc ▸ closed.concrete c

variable (sorting) in
/-- Every temporary label of a typed tree is reached by a collected label. -/
theorem typed_grounded (henv : ConcreteEnv env)
    (h : Typed .checking host (fun l => l.isTemp = true) env ast) :
    ∀ l ∈ ast.labels, Grounded (Flow (collectConstraints (.concrete ⊤) ast))
      (collectProperLabels sorting ast) l := by
  refine h.labels_closed grounded_closed (henv.closed grounded_closed) ?_
  intro p hp hbound s d hsd
  obtain ⟨s', d', htemp⟩ := Label.isTemp_iff.mp (h.binders p hp)
  obtain ⟨rfl, rfl⟩ : s = s' ∧ d = d' := by simpa [htemp, Label.leaves] using hsd
  obtain ⟨hc, hlabel⟩ := bindingFlows_collected (.concrete ⊤) hp
  obtain ⟨u, hu⟩ := Label.exists_leaf p.1
  have hflow : Flow (collectConstraints (.concrete ⊤) ast) u (.temp s d) :=
    ⟨_, hc, hu, htemp ▸ collapseTarget_temp s d⟩
  cases u with
  | concrete x =>
      refine ⟨x, (mem_collectProperLabels sorting).mpr ⟨p.1, hlabel, ?_⟩, .direct hflow⟩
      exact Label.concrete_mem_leaves.mp hu
  | temp s' d' =>
      obtain ⟨x, hx, hreach⟩ := hbound s' d' hu
      exact ⟨x, hx, .through hreach hflow⟩
  | minOf a b => simpa [Label.isMinOf] using Label.mem_leaves_not_minOf hu

theorem ConcreteEnv.bindingLabel (henv : ConcreteEnv env) {b : TypeBinding (Label L) L}
    (hb : b ∈ env.bindings) : ∃ c, b.bindingLabel .checking = .concrete c := by
  obtain ⟨c, hc⟩ := henv.bindings b hb
  unfold TypeBinding.bindingLabel
  split
  · rename_i h _ _ _ _
    rw [hc]
    obtain hr | hr := Label.resolvedMin_cases (.concrete c) (.concrete h)
    · exact ⟨⊥, hr⟩
    · exact ⟨_, hr⟩
  · exact ⟨c, hc⟩

theorem findConcreteLabel_resolvedMin {a : Label L} {o : Option L} (c : L)
    (h : findConcreteLabel a = .ok o) :
    ∃ o, findConcreteLabel (Label.resolvedMin a (.concrete c)) = .ok o := by
  obtain hr | hr := Label.resolvedMin_cases a (.concrete c)
  · exact ⟨some ⊥, by simp [hr, findConcreteLabel]⟩
  · obtain hr' | ⟨y, z, -, -, hr'⟩ := Label.resolve_cases a (.concrete c)
    · simp only [hr, hr', findConcreteLabel, h]
      cases o with
      | none => exact ⟨some c, rfl⟩
      | some y =>
          by_cases hcy : FlowsTo c y
          · exact ⟨some y, by simp [bind, Except.bind, pickMinMatch, hcy]⟩
          · exact ⟨some c, by simp [bind, Except.bind, pickMinMatch, hcy]⟩
    · exact ⟨some (min y z), by simp [hr, hr', findConcreteLabel]⟩

/-- Every target of a typed tree can be collapsed. -/
theorem typed_collapsible (henv : ConcreteEnv env)
    (h : Typed .checking host (fun l => l.isTemp = true) env ast) (pc : Label L) :
    ∀ c ∈ collectConstraints pc ast, ∃ v, collapseTarget c.low = .ok v := by
  have anchored : ∀ c ∈ collectConstraints pc ast, ∃ o, findConcreteLabel c.low = .ok o := by
    refine typed_targets (P := fun l => ∃ o, findConcreteLabel l = .ok o) (S := fun _ => True)
      ?_ ?_ ?_ ?_ h fun _ _ => trivial
    · intro x
      exact ⟨some x, rfl⟩
    · rintro a x ⟨o, ho⟩ -
      obtain ⟨o', ho'⟩ := findConcreteLabel_resolvedMin x ho
      exact findConcreteLabel_resolvedMin x ho'
    · intro l hl
      obtain ⟨s, d, rfl⟩ := Label.isTemp_iff.mp hl
      exact ⟨none, rfl⟩
    · intro b hb
      obtain ⟨x, hx⟩ := henv.bindingLabel hb
      exact ⟨some x, by rw [hx]; rfl⟩
  intro c hc
  obtain ⟨o, ho⟩ := anchored c hc
  exact collapseTarget_ok ho

variable {substitutions : List (L × Int × Int)}

/-- The label put for a temporary one. -/
def inferredLabel (substitutions : List (L × Int × Int)) (s d : Int) : L :=
  match applySubstitutions substitutions (.temp s d) with
  | .concrete c => c
  | _ => ⊤

theorem inferredLabel_eq {s d : Int} {c : L}
    (h : applySubstitutions substitutions (.temp s d) = .concrete c) :
    inferredLabel substitutions s d = c := by
  simp [inferredLabel, h]

/-- A label whose temporary labels were all put is concrete, with its meaning. -/
theorem applySubstitutions_eval {l : Label L} (normal : l.Normal)
    (put : ∀ s d, .temp s d ∈ l.leaves →
      ∃ c, applySubstitutions substitutions (.temp s d) = .concrete c) :
    applySubstitutions substitutions l =
      .concrete (l.eval (inferredLabel substitutions)) := by
  induction l with
  | concrete c => simp
  | temp s d =>
      obtain ⟨c, hc⟩ := put s d (by simp [Label.leaves])
      simp [hc, inferredLabel_eq hc]
  | minOf a b iha ihb =>
      obtain ⟨na, nb, nab⟩ := normal
      have ha := iha na fun s d h => put s d (List.mem_append_left _ h)
      have hb := ihb nb fun s d h => put s d (List.mem_append_right _ h)
      calc applySubstitutions substitutions (.minOf a b)
          = applySubstitutions substitutions (Label.resolve a b) := by rw [nab]
        _ = Label.resolve (applySubstitutions substitutions a)
              (applySubstitutions substitutions b) := applySubstitutions_resolve a b
        _ = _ := by simp [ha, hb, Label.resolve, Label.labelsMinOf_eq]

/-- What a successful inference leaves: the labels put for temporary ones. -/
structure Outcome (sorting : Library.ComparisonSort) (ast inferred : Statement (Label L) L)
    (substitutions : List (L × Int × Int)) : Prop where
  inferred_eq : inferred =
    (ast.mapLabel (Label.eval (inferredLabel substitutions))).mapLabel .concrete
  reached : ∀ x v, x ∈ collectProperLabels sorting ast →
    Reaches (Flow (collectConstraints (.concrete ⊤) ast)) x v →
    ∃ y, applySubstitutions substitutions v = .concrete y ∧ y ≤ x
  put : ∀ l, Grounded (Flow (collectConstraints (.concrete ⊤) ast))
      (collectProperLabels sorting ast) l → ∀ s d, .temp s d ∈ l.leaves →
    ∃ c, applySubstitutions substitutions (.temp s d) = .concrete c ∧
      c ∈ collectProperLabels sorting ast ∧
      Reaches (Flow (collectConstraints (.concrete ⊤) ast)) c (.temp s d)

variable (sorting ast) in
/-- What type checking gives the solver to start from: targets that can be collapsed,
temporary labels that are reached, and no minimum of concrete labels. -/
structure Inferable : Prop where
  collapsible : ∀ c ∈ collectConstraints (.concrete ⊤) ast, ∃ v, collapseTarget c.low = .ok v
  grounded : ∀ l ∈ ast.labels, Grounded (Flow (collectConstraints (.concrete ⊤) ast))
    (collectProperLabels sorting ast) l
  normal : ∀ l ∈ ast.labels, l.Normal

variable (sorting) in
theorem typed_inferable (henv : ConcreteEnv env)
    (h : Typed .checking host (fun l => l.isTemp = true) env ast) : Inferable sorting ast := by
  refine ⟨typed_collapsible henv h (.concrete ⊤), typed_grounded sorting henv h, ?_⟩
  apply h.labels_closed normal_closed (henv.closed normal_closed)
  intro p hp _
  obtain ⟨s, d, htemp⟩ := Label.isTemp_iff.mp (h.binders p hp)
  rw [htemp]
  trivial

/-- Inference reports a conflict or has an outcome, in whatever order and number the
constraints are given. -/
theorem Inferable.outcome (h : Inferable sorting ast) {constraints : List (Constraint L)}
    (same : ∀ c, c ∈ constraints ↔ c ∈ collectConstraints (.concrete ⊤) ast) :
    (∀ e, inferLabelsFrom sorting ast constraints = .error e → e = .flowViolation ∧
      Conflict (Flow (collectConstraints (.concrete ⊤) ast)) (collectProperLabels sorting ast)) ∧
    ∀ inferred, inferLabelsFrom sorting ast constraints = .ok inferred →
      ∃ substitutions, Outcome sorting ast inferred substitutions := by
  obtain ⟨collapsed, hcollapse, hflow⟩ :=
    collapseConstraints_ok fun c hc => h.collapsible c ((same c).mp hc)
  set collected := collectProperLabels sorting ast with hcollected
  have run := inferLabelsHelper_solving sorting ast (fun u v => flow_source)
    (collectProperLabels_sorted sorting ast) (fun l hl => hl)
    (flow_congr same ▸ solving_start hflow)
  have hrun : inferLabelsFrom sorting ast constraints = inferLabelsHelper sorting collected
      (ast.mapLabel (applySubstitutions [])) (minimizeConstraints collapsed) := by
    have untouched : ast.mapLabel (applySubstitutions []) = ast := Statement.mapLabel_id ast
    rw [untouched, inferLabelsFrom, hcollapse]
    rfl
  rw [hrun]
  refine ⟨fun e he => run.2 e he, fun inferred result => ?_⟩
  obtain ⟨substitutions, left, hinferred, solved⟩ := run.1 inferred result
  have reached : ∀ x v, x ∈ collected →
      Reaches (Flow (collectConstraints (.concrete ⊤) ast)) x v →
      ∃ y, applySubstitutions substitutions v = .concrete y ∧ y ≤ x :=
    fun x v hx hreach => solved.reached (fun u v => flow_source) hx hreach
  have put : ∀ l, Grounded (Flow (collectConstraints (.concrete ⊤) ast)) collected l →
      ∀ s d, .temp s d ∈ l.leaves →
      ∃ c, applySubstitutions substitutions (.temp s d) = .concrete c ∧ c ∈ collected ∧
        Reaches (Flow (collectConstraints (.concrete ⊤) ast)) c (.temp s d) := by
    intro l hl s d hsd
    obtain ⟨x, hx, hreach⟩ := hl s d hsd
    obtain ⟨y, hy, -⟩ := reached _ _ hx hreach
    obtain same | ⟨c', hmem, hc'⟩ := applySubstitutions_temp substitutions s d
    · simp [same] at hy
    · obtain ⟨hcol, hreach, -⟩ := solved.put _ hmem
      exact ⟨c', hc', hcol, hreach⟩
  refine ⟨substitutions, ?_, reached, put⟩
  rw [hinferred, Statement.mapLabel_mapLabel]
  refine Statement.mapLabel_congr _ _ fun l hl => ?_
  refine applySubstitutions_eval (h.normal l hl) fun s d hsd => ?_
  obtain ⟨c, hc, -⟩ := put l (h.grounded l hl) s d hsd
  exact ⟨c, hc⟩

variable (sorting) in
/-- Inference of a typed tree reports a conflict or has an outcome. -/
theorem inferLabels_outcome (henv : ConcreteEnv env)
    (h : Typed .checking host (fun l => l.isTemp = true) env ast) :
    (∀ e, inferLabels sorting ast = .error e → e = .flowViolation ∧
      Conflict (Flow (collectConstraints (.concrete ⊤) ast)) (collectProperLabels sorting ast)) ∧
    ∀ inferred, inferLabels sorting ast = .ok inferred →
      ∃ substitutions, Outcome sorting ast inferred substitutions :=
  (typed_inferable sorting henv h).outcome fun _ => Iff.rfl

section Outcome

variable {inferred : Statement (Label L) L}

theorem Outcome.noConflict (out : Outcome sorting ast inferred substitutions) :
    ¬ Conflict (Flow (collectConstraints (.concrete ⊤) ast)) (collectProperLabels sorting ast) := by
  rintro ⟨x, hx, y, hreach, violated⟩
  obtain ⟨z, hz, hle⟩ := out.reached _ _ hx hreach
  obtain rfl : y = z := by simpa using hz
  exact violated hle

variable (sorting) in
theorem constraint_grounded (henv : ConcreteEnv env)
    (h : Typed .checking host (fun l => l.isTemp = true) env ast) {c : Constraint L}
    (hc : c ∈ collectConstraints (.concrete ⊤) ast) :
    Grounded (Flow (collectConstraints (.concrete ⊤) ast)) (collectProperLabels sorting ast) c.high ∧
    Grounded (Flow (collectConstraints (.concrete ⊤) ast)) (collectProperLabels sorting ast) c.low := by
  have grounded := typed_grounded sorting henv h
  constructor
  · exact collectConstraints_high grounded_closed.concrete
      (fun a b ha hb s d hsd => (List.mem_append.mp hsd).elim (ha s d) (hb s d))
      (grounded_closed.concrete ⊤) grounded c hc
  · obtain hl | ⟨x, hx⟩ := collectConstraints_low hc
    · exact grounded _ hl
    · rw [hx]
      exact grounded_closed.concrete x

/-- A constraint is satisfied when its target is below each source that has no turn. -/
theorem Outcome.satisfied (out : Outcome sorting ast inferred substitutions)
    (henv : ConcreteEnv env) (h : Typed .checking host (fun l => l.isTemp = true) env ast)
    {c : Constraint L} (hc : c ∈ collectConstraints (.concrete ⊤) ast)
    (missed : ∀ x ∈ c.high.properLabels, x ∉ collectProperLabels sorting ast →
      c.low.eval (inferredLabel substitutions) ≤ x) :
    FlowsTo (c.high.eval (inferredLabel substitutions))
      (c.low.eval (inferredLabel substitutions)) := by
  -- a collected label that reaches the collapsed target bounds the target
  have below : ∀ x v, x ∈ collectProperLabels sorting ast → collapseTarget c.low = .ok v →
      Reaches (Flow (collectConstraints (.concrete ⊤) ast)) x v →
      c.low.eval (inferredLabel substitutions) ≤ x := by
    intro x v hx hv hreach
    obtain ⟨y, hy, hle⟩ := out.reached _ _ hx hreach
    have hmem := collapseTarget_mem hv
    refine (Label.eval_le_iff _).mpr ⟨v, hmem, ?_⟩
    cases v with
    | concrete z =>
        obtain rfl : z = y := by simpa using hy
        exact hle
    | temp s d =>
        rw [Label.eval_temp, inferredLabel_eq hy]
        exact hle
    | minOf a b => simpa [Label.isMinOf] using Label.mem_leaves_not_minOf hmem
  obtain ⟨v, hv⟩ := typed_collapsible henv h (.concrete ⊤) c hc
  refine (Label.le_eval_iff _).mpr fun u hu => ?_
  have hflow : Flow (collectConstraints (.concrete ⊤) ast) u v := ⟨c, hc, hu, hv⟩
  cases u with
  | concrete x =>
      by_cases hx : x ∈ collectProperLabels sorting ast
      · exact below x v hx hv (.direct hflow)
      · exact missed x (Label.concrete_mem_leaves.mp hu) hx
  | temp s d =>
      obtain ⟨y, hy, hcol, hreach⟩ :=
        out.put _ (constraint_grounded sorting henv h hc).1 s d hu
      rw [Label.eval_temp, inferredLabel_eq hy]
      exact below y v hcol hv (.through hreach hflow)
  | minOf a b => simpa [Label.isMinOf] using Label.mem_leaves_not_minOf hu

/-- The labels put satisfy every constraint when the missed sources are bounded. -/
theorem Outcome.solution (out : Outcome sorting ast inferred substitutions)
    (henv : ConcreteEnv env) (h : Typed .checking host (fun l => l.isTemp = true) env ast)
    (bounded : MissedSourcesBounded sorting ast) :
    ∀ c ∈ collectConstraints (.concrete ⊤) ast,
      FlowsTo (c.high.eval (inferredLabel substitutions))
        (c.low.eval (inferredLabel substitutions)) := by
  intro c hc
  apply out.satisfied henv h hc
  intro x hx missed
  apply (Label.eval_le_iff _).mpr
  obtain ⟨y, hy, hle⟩ | ⟨s, d, hsd, y, hcol, hle, hreach⟩ := bounded c hc x hx missed
  · exact ⟨_, Label.concrete_mem_leaves.mpr hy, hle⟩
  · obtain ⟨z, hz, hzy⟩ := out.reached _ _ hcol hreach
    refine ⟨_, hsd, ?_⟩
    rw [Label.eval_temp, inferredLabel_eq hz]
    exact hzy.trans hle

end Outcome

/-- Inference is sound on a typed tree exactly when it has a conflict to report or no
missed source decides the label of a target. -/
theorem inferenceSound_iff (henv : ConcreteEnv env)
    (h : Typed .checking host (fun l => l.isTemp = true) env ast) :
    InferenceSound sorting ast ↔
      Conflict (Flow (collectConstraints (.concrete ⊤) ast)) (collectProperLabels sorting ast) ∨
        MissedSourcesBounded sorting ast := by
  have outcome := inferLabels_outcome sorting henv h
  unfold MissedSourcesBounded InferenceSound
  cases result : inferLabels sorting ast with
  | error e =>
      obtain ⟨he, conflict⟩ := outcome.1 e result
      exact ⟨fun _ => Or.inl conflict, fun _ => he⟩
  | ok inferred =>
      obtain ⟨substitutions, out⟩ := outcome.2 inferred result
      constructor
      · rintro ⟨ρ, hρ, satisfied⟩
        right
        intro c hc x hx missed
        -- the labels of the result determine the labels put for temporary ones
        have agree : ∀ l ∈ ast.labels,
            l.eval ρ = l.eval (inferredLabel substitutions) := by
          have same := congrArg Statement.labels (hρ.symm.trans out.inferred_eq)
          simp only [Statement.labels_mapLabel, List.map_map, List.map_inj_left,
            Function.comp_apply, Label.concrete.injEq] at same
          exact same
        have hlow : c.low.eval ρ = c.low.eval (inferredLabel substitutions) := by
          obtain hl | ⟨y, hy⟩ := collectConstraints_low hc
          · exact agree _ hl
          · simp [hy]
        have hle : c.low.eval (inferredLabel substitutions) ≤ x := by
          rw [← hlow]
          exact (satisfied c hc).trans ((Label.eval_le_iff ρ).mpr
            ⟨_, Label.concrete_mem_leaves.mpr hx, le_rfl⟩)
        obtain ⟨u, hu, hux⟩ := (Label.eval_le_iff _).mp hle
        cases u with
        | concrete y => exact Or.inl ⟨y, Label.concrete_mem_leaves.mp hu, hux⟩
        | temp s d =>
            obtain ⟨y, hy, hcol, hreach⟩ :=
              out.put _ (constraint_grounded sorting henv h hc).2 s d hu
            rw [Label.eval_temp, inferredLabel_eq hy] at hux
            exact Or.inr ⟨s, d, hu, y, hcol, hux, hreach⟩
        | minOf a b => simpa [Label.isMinOf] using Label.mem_leaves_not_minOf hu
      · intro bounded
        exact ⟨inferredLabel substitutions, out.inferred_eq,
          out.solution henv h (bounded.resolve_left out.noConflict)⟩

end Sound

section FourLabels

/-- Bottom, causal, strong and top. -/
abbrev FourLabels := Fin 4

instance fourLabels_nonempty : NeZero 4 := ⟨by decide⟩

def causal : FourLabels := 1

def strong : FourLabels := 2

/-- A host that knows its handles only. -/
def handlesOnly : HostTypes FourLabels := ⟨fun _ _ => none, fun _ _ _ => none, fun _ _ _ => none⟩

def qName : VarName := .ident ['q']

def hName : VarName := .ident ['h']

def xName : VarName := .ident ['x']

def yName : VarName := .ident ['y']

def zName : VarName := .ident ['z']

def strongInput : List (VarName × Ty FourLabels) := [(hName, .handle strong .int [])]

/-- `remote y = h, {}`. -/
def readStrong : Statement (Label FourLabels) FourLabels :=
  .letRemote (.concrete strong) ⟨.temp 1 1, .int, yName, ⟨.concrete ⊤, .handle strong .int [], hName⟩⟩
    (.nil (.concrete ⊤))

/-- `remote x = q, remote y = x, remote z = h, {}`, where `q` is a causal handle of a
causal handle and `h` is a strong handle. -/
def strongBelowCausal : Parsed.Stmt FourLabels :=
  .letRemote xName qName (.letRemote yName xName (.letRemote zName hName .nil))

/-- Its labels: the pointer `x` lowers every label around `z` below strong. -/
def strongBelowCausalAst : Statement (Label FourLabels) FourLabels :=
  .letRemote (.concrete causal)
    ⟨.temp 1 1, .handle causal .int [], xName,
      ⟨.concrete ⊤, .handle causal (.handle causal .int []) [], qName⟩⟩
    (.letRemote (.concrete causal)
      ⟨.temp 2 2, .int, yName, ⟨.concrete causal, .handle causal .int [], xName⟩⟩
      (.letRemote (.concrete causal)
        ⟨.temp 3 3, .int, zName, ⟨.concrete ⊤, .handle strong .int [], hName⟩⟩
        (.nil (.concrete causal))))

end FourLabels

end Inference

end MixT
