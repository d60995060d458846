import MixT.Split.Places

/-! # Which programs can be split

The splitter compares the labels of statements, and nothing makes the label of the
environment flow to the label of a handle or of a binding. Where it does, and every
variable that `ensure` relabels is at hand, an accepted program splits with each effect
in the phase of its handle; and only then. -/

namespace MixT.Split

open Library

section Conditions

variable {L : Type*} [LinearOrder L] [BoundedOrder L]

/-- The handle's label, for the statement at `o` that runs on the handle. -/
def onHandle (o : Origin) (handle : Ty L) : List (Origin × L) :=
  (handle.label.map fun l => (o, l)).toList

/-- The reference is to a remote variable in scope, whose handle has its label. -/
def isRemote (scope : List (L × VarBinding L)) (x : VarRef L L) : Bool :=
  scope.any fun d =>
    match d.2 with
    | .type b => b.name = x.var ∧ b.yield = some x.yield ∧ b.location = .remoteVar ∧
        b.type.label = some x.label
    | .loop _ => false

/-- The operations, remote lets and remote assignments of a program, each with its place
and the label of its handle. -/
def handleEffects : Origin → List (L × VarBinding L) → Statement L L → List (Origin × L)
  | o, scope, .letIn l b body =>
      (match b.expr.form with
        | .operation _ h _ => onHandle o h.yield
        | _ => []) ++ handleEffects (0 :: o) ((l, localBinding b) :: scope) body
  | o, scope, .letRemote l b body =>
      onHandle o b.expr.yield ++ handleEffects (0 :: o) ((l, remoteBinding b) :: scope) body
  | o, _, .operation _ _ h _ => onHandle o h.yield
  | o, scope, .assignment _ target _ =>
      if isRemote scope target.base then [(o, target.base.label)] else []
  | o, scope, .ifThen _ _ t e => handleEffects (0 :: o) scope t ++ handleEffects (1 :: o) scope e
  | o, scope, .whileLoop _ _ _ body => handleEffects (0 :: o) scope body
  | o, scope, .cons _ first rest =>
      handleEffects (0 :: o) scope first ++ handleEffects (1 :: o) scope rest
  | _, _, _ => []

/-- The splitter succeeds: each variable that a phase reads has a label that flows to
the phase and is bound there or inherited. Each effect on a handle is in the phase of
the handle's label and in no other, and each phase refreshes objects of its own label. -/
def SplitsWell (sorting : ComparisonSort) (inputs : List (VarName × Ty L))
    (named : Statement L L) : Prop :=
  ∃ phases, splitComputation sorting inputs named = .ok phases ∧
    (∀ e ∈ handleEffects [] [] named, (∃ P ∈ phases, P.label = e.2) ∧
      ∀ P ∈ phases, (e.1 ∈ P.ast.kept ↔ P.label = e.2)) ∧
    ∀ P ∈ phases, ∀ h ∈ P.ast.refreshed, h.yield.label = some P.label

/-- A variable of the name and the type is an input, is bound in a stronger phase than
`k`, or is in scope and bound in phase `k`. -/
def Available (start : List (VarBinding L)) (all scope : List (L × VarBinding L)) (k : L)
    (x : VarName) (t : Ty L) : Prop :=
  Builtin.isBuiltinVar x = true ∨ (∃ v ∈ start, v.binds x t = true) ∨
    (∃ d ∈ all, k < d.1 ∧ d.2.binds x t = true) ∨ ∃ d ∈ scope, d.1 = k ∧ d.2.binds x t = true

/-- The label of the environment flows to the label of each handle that is used and of
each binding that is made. The body of a remote let runs under the label of its pointer,
and the branches and bodies of ifs and loops under that of their condition. -/
def Placeable (start : List (VarBinding L)) (all : List (L × VarBinding L)) :
    L → List (L × VarBinding L) → Statement L L → Prop
  | pc, scope, .letIn l b body =>
      FlowsTo pc b.label ∧
      (match b.expr.form with
        | .operation _ h _ => FlowsToHandle pc h.yield
        | .varReference x => Available start all scope l x b.expr.yield
        | _ => True) ∧
      Placeable start all pc ((l, localBinding b) :: scope) body
  | pc, scope, .letRemote l b body =>
      FlowsTo pc b.label ∧ FlowsToHandle pc b.expr.yield ∧
      (∀ handleLabel, b.expr.yield.label = some handleLabel → FlowsTo handleLabel b.label) ∧
      Placeable start all (min pc b.expr.label) ((l, remoteBinding b) :: scope) body
  | pc, _, .operation _ _ h _ => FlowsToHandle pc h.yield
  | pc, scope, .assignment _ target _ =>
      isRemote scope target.base = true → FlowsTo pc target.base.label
  | _, scope, .writeTombstone l e => Available start all scope l e.var e.yield
  | pc, scope, .ifThen _ c t e =>
      Placeable start all (min c.label pc) scope t ∧ Placeable start all (min c.label pc) scope e
  | pc, scope, .whileLoop _ _ c body => Placeable start all (min c.label pc) scope body
  | pc, scope, .cons _ first rest =>
      Placeable start all pc scope first ∧ Placeable start all pc scope rest
  | _, _, _ => True

end Conditions

section Succeeds

variable {L : Type*} [LinearOrder L] [BoundedOrder L] {host : HostTypes L} {binder : L → Prop}
  {k : L} {inherits provides : List (VarBinding L)}

omit [BoundedOrder L] in
theorem collectVar_ok_iff {x : VarRef L L} :
    (∃ r, collectVar k inherits provides x = .ok r) ↔
      Builtin.isBuiltinVar x.var = true ∨ FlowsTo x.label k ∧
        (containsSubtype provides x.var x.yield = true ∨
          containsSubtype inherits x.var x.yield = true) := by
  unfold collectVar
  by_cases hb : Builtin.isBuiltinVar x.var = true
  · simp [hb]
  · by_cases hf : FlowsTo x.label k
    · by_cases hp : containsSubtype provides x.var x.yield = true
      · simp [hb, hf, hp]
      · cases hi : inherits.find? (VarBinding.binds x.var x.yield) with
        | some b =>
            have : containsSubtype inherits x.var x.yield = true :=
              List.any_eq_true.mpr ⟨b, List.mem_of_find?_eq_some hi, List.find?_some hi⟩
            simp [hb, hf, hp, this]
        | none =>
            have : ¬ containsSubtype inherits x.var x.yield = true := by
              simpa [containsSubtype] using List.find?_eq_none.mp hi
            simp [hb, hf, hp, this]
    · simp [hb, hf]

omit [BoundedOrder L] in
theorem collectVars_ok {xs : List (VarRef L L)}
    (h : ∀ x ∈ xs, ∃ r, collectVar k inherits provides x = .ok r) :
    ∃ r, collectVars k inherits provides xs = .ok r := by
  induction xs with
  | nil => exact ⟨[], rfl⟩
  | cons x rest ih =>
      obtain ⟨r, hr⟩ := h x (List.mem_cons_self ..)
      obtain ⟨rs, hrs⟩ := ih fun y hy => h y (List.mem_cons_of_mem _ hy)
      exact ⟨r ++ rs, by simp [collectVars, hr, hrs, bind, Except.bind]⟩

/-- The phase can read each variable of the environment whose label flows to it. -/
def Visible (k : L) (inherits provides : List (VarBinding L)) (env : TypeEnv L L) : Prop :=
  ∀ b ∈ env.bindings, ∀ t, b.yield = some t → k ≤ b.bindingLabel .concrete →
    Builtin.isBuiltinVar b.name = true ∨ containsSubtype provides b.name t = true ∨
      containsSubtype inherits b.name t = true

omit [BoundedOrder L] in
theorem Visible.collectVar {env : TypeEnv L L} (visible : Visible k inherits provides env)
    {x : VarRef L L} (typed : TypedVar .concrete env x) (h : k ≤ x.label) :
    ∃ r, collectVar k inherits provides x = .ok r := by
  obtain ⟨b, hb, hname, hyield, -, hlabel⟩ := typed
  rw [collectVar_ok_iff, ← hname]
  obtain hv | hv := visible b hb _ hyield (hlabel ▸ h)
  · exact Or.inl hv
  · exact Or.inr ⟨h, hv⟩

omit [BoundedOrder L] in
/-- A phase at or below the operands of an operation can read them. -/
theorem Visible.collectOperands {env : TypeEnv L L} (visible : Visible k inherits provides env)
    {x : VarRef L L} {args : List (VarRef L L)} (typed : TypedVar .concrete env x)
    (typedArgs : ∀ y ∈ args, TypedVar .concrete env y) (below : ∀ y ∈ x :: args, k ≤ y.label) :
    ∃ r, collectVars k inherits provides (x :: args) = .ok r := by
  apply collectVars_ok
  intro y hy
  apply visible.collectVar _ (below y hy)
  obtain rfl | hy := List.mem_cons.mp hy
  · exact typed
  · exact typedArgs y hy

omit [BoundedOrder L] in
/-- A phase at or below the target of an assignment can read what the target is based on. -/
theorem Visible.collectBase {env : TypeEnv L L} (visible : Visible k inherits provides env)
    {target : Target L L} (typed : TypedTarget .concrete host env target) (h : k ≤ target.label) :
    ∃ r, Split.collectVar k inherits provides target.base = .ok r := by
  cases target with
  | var x => exact visible.collectVar typed h
  | field label yield struct f =>
      obtain ⟨hs, -, rfl⟩ := typed
      exact visible.collectVar hs h

omit [BoundedOrder L] in
theorem Visible.withPc {env : TypeEnv L L} (visible : Visible k inherits provides env) (pc : L) :
    Visible k inherits provides (env.withPc pc) := visible

omit [BoundedOrder L] in
theorem Visible.extend {env : TypeEnv L L} {new : TypeBinding L L} {v : VarBinding L}
    (visible : Visible k inherits provides env)
    (added : ∀ t, new.yield = some t → k ≤ new.bindingLabel .concrete →
      containsSubtype (v :: provides) new.name t = true) :
    Visible k inherits (v :: provides) (env.extend new) := by
  intro b hb t ht hk
  obtain hb | hb := List.mem_append.mp hb
  · refine (visible b hb t ht hk).imp_right (Or.imp_left fun h => ?_)
    simp only [containsSubtype, List.any_cons, Bool.or_eq_true]
    exact Or.inr h
  · obtain rfl := List.mem_singleton.mp hb
    exact Or.inr (Or.inl (added t ht hk))

omit [BoundedOrder L] in
theorem Visible.extend_inherited {env : TypeEnv L L} {new : TypeBinding L L}
    (visible : Visible k inherits provides env)
    (added : ∀ t, new.yield = some t → k ≤ new.bindingLabel .concrete →
      containsSubtype inherits new.name t = true) :
    Visible k inherits provides (env.extend new) := by
  intro b hb t ht hk
  obtain hb | hb := List.mem_append.mp hb
  · exact visible b hb t ht hk
  · obtain rfl := List.mem_singleton.mp hb
    exact Or.inr (Or.inr (added t ht hk))

variable {start : List (VarBinding L)} {all scope : List (L × VarBinding L)}

/-- What a phase inherits and what the lets around a statement provide. -/
structure Around (k : L) (start : List (VarBinding L)) (all scope : List (L × VarBinding L))
    (inherits provides : List (VarBinding L)) : Prop where
  inherited : ∀ v, v ∈ inherits ↔ v ∈ start ∨ ∃ d ∈ all, k < d.1 ∧ d.2 = v
  provided : ∀ v, v ∈ provides ↔ (k, v) ∈ scope

omit [BoundedOrder L] in
theorem Around.cons_own (around : Around k start all scope inherits provides) (v : VarBinding L) :
    Around k start all ((k, v) :: scope) inherits (v :: provides) :=
  ⟨around.inherited, fun w => by simp [around.provided w]⟩

omit [BoundedOrder L] in
theorem Around.cons_other (around : Around k start all scope inherits provides) {l : L}
    (hl : l ≠ k) (v : VarBinding L) : Around k start all ((l, v) :: scope) inherits provides :=
  ⟨around.inherited, fun w => by simp [around.provided w, hl.symm]⟩

omit [BoundedOrder L] in
theorem Around.available (around : Around k start all scope inherits provides) {x : VarRef L L} :
    Available start all scope k x.var x.yield ↔
      Builtin.isBuiltinVar x.var = true ∨ containsSubtype provides x.var x.yield = true ∨
        containsSubtype inherits x.var x.yield = true := by
  simp only [Available, containsSubtype, List.any_eq_true]
  constructor
  · rintro (h | ⟨v, hv, h⟩ | ⟨d, hd, hk, h⟩ | ⟨⟨l, v⟩, hd, rfl, h⟩)
    · exact Or.inl h
    · exact Or.inr (Or.inr ⟨v, (around.inherited v).mpr (Or.inl hv), h⟩)
    · exact Or.inr (Or.inr ⟨d.2, (around.inherited _).mpr (Or.inr ⟨d, hd, hk, rfl⟩), h⟩)
    · exact Or.inr (Or.inl ⟨v, (around.provided v).mpr hd, h⟩)
  · rintro (h | ⟨v, hv, h⟩ | ⟨v, hv, h⟩)
    · exact Or.inl h
    · exact Or.inr (Or.inr (Or.inr ⟨(k, v), (around.provided v).mp hv, rfl, h⟩))
    · obtain hv | ⟨d, hd, hk, rfl⟩ := (around.inherited v).mp hv
      · exact Or.inr (Or.inl ⟨v, hv, h⟩)
      · exact Or.inr (Or.inr (Or.inl ⟨d, hd, hk, h⟩))

theorem Visible.collectExpr {env : TypeEnv L L} (visible : Visible k inherits provides env)
    (around : Around k start all scope inherits provides) {e : Expression L L}
    (typed : TypedExpr .concrete host env e) (free : ∀ l x, e.form ≠ .endorse l x)
    (h : k ≤ e.label)
    (available : ∀ x, e.form = .varReference x → Available start all scope k x e.yield) :
    ∃ r, collectExpr k inherits provides e = .ok r := by
  obtain ⟨label, yield, form⟩ := e
  unfold Split.collectExpr
  cases form with
  | varReference x =>
      have hx := (around.available (x := ⟨label, yield, x⟩)).mp (available x rfl)
      exact collectVar_ok_iff.mpr (hx.imp_right fun hv => ⟨h, hv⟩)
  | fieldReference struct f =>
      obtain ⟨hs, -, rfl⟩ := typed
      exact visible.collectVar hs h
  | constant i => exact ⟨[], rfl⟩
  | binOp op l r =>
      obtain ⟨hl, hr, -, rfl⟩ := typed
      have hmin := le_min_iff.mp h
      refine collectVars_ok ?_
      simp only [List.forall_mem_cons, List.not_mem_nil, IsEmpty.forall_iff, implies_true, and_true]
      exact ⟨visible.collectVar hl hmin.1, visible.collectVar hr hmin.2⟩
  | generateTombstone => exact ⟨[], rfl⟩
  | isValid x =>
      obtain ⟨hx, handleLabel, -, rfl⟩ := typed
      exact visible.collectVar hx (le_min_iff.mp (le_min_iff.mp h).1).2
  | endorse l x => exact absurd rfl (free l x)
  | operation name x args =>
      obtain ⟨hx, hargs, handleLabel, -, rfl⟩ := typed
      have operands := (LabelAlgebra.le_operationLabel_iff.mp h).2.2
      exact visible.collectOperands hx hargs operands

/-- Where the label of the environment flows as it must, each phase can be collected. -/
theorem collectPhase_succeeds {env : TypeEnv L L} {s : Statement L L} {o : Origin}
    (typed : Typed .concrete host binder env s) (operands : s.OperandsFlow)
    (free : s.EndorseFree) (placeable : Placeable start all env.pcLabel scope s)
    (sub : ∀ d ∈ declared s, d ∈ all) (around : Around k start all scope inherits provides)
    (visible : Visible k inherits provides env) :
    ∃ c, collectPhase k inherits o provides s = .ok c := by
  have stronger : ∀ {l : L} {v : VarBinding L}, (l, v) ∈ all → k < l → v ∈ inherits :=
    fun hd hl => (around.inherited _).mpr (Or.inr ⟨_, hd, hl, rfl⟩)
  induction s generalizing env o provides scope with
  | letIn l b body ih =>
      obtain ⟨he, hy, -, -, hl, hbody⟩ := typed
      obtain ⟨-, hbound, operands⟩ := operands
      obtain ⟨hfree, free⟩ := free
      obtain ⟨hpc, hexpr, placeable⟩ := placeable
      simp only [declared, List.forall_mem_cons] at sub
      -- the let is at or above the label of its binding
      have hb : b.label ≤ l := hl ▸ le_min hbound hpc
      unfold collectPhase
      by_cases hk : l = k
      · subst hk
        have added : ∀ t, (letBinding b).yield = some t → l ≤ (letBinding b).bindingLabel .concrete →
            containsSubtype (localBinding b :: provides) (letBinding b).name t = true :=
          fun t ht _ => containsSubtype_iff.mpr ⟨_, List.mem_cons_self .., rfl, ht⟩
        obtain ⟨reqs, hreqs⟩ := visible.collectExpr around he hfree (hl ▸ min_le_left _ _)
          fun x hx => by simpa [hx] using hexpr
        obtain ⟨c', hc⟩ := ih (o := 0 :: o) hbody operands free placeable sub.2
          (around.cons_own (localBinding b)) (visible.extend added)
        rw [localBinding] at hc
        exact ⟨_, by simp [show FlowsTo l b.label from hb, hreqs, hc, bind, Except.bind]; rfl⟩
      · have added : ∀ t, (letBinding b).yield = some t → k ≤ (letBinding b).bindingLabel .concrete →
            containsSubtype inherits (letBinding b).name t = true := by
          intro t ht hkb
          have above : k < l := lt_of_le_of_ne (le_trans hkb hb) (Ne.symm hk)
          exact containsSubtype_iff.mpr ⟨_, stronger sub.1 above, rfl, ht⟩
        obtain ⟨c', hc⟩ := ih (o := 0 :: o) hbody operands free placeable sub.2
          (around.cons_other hk _) (visible.extend_inherited added)
        exact ⟨_, by simp [hk, hc, bind, Except.bind]; rfl⟩
  | letRemote l b body ih =>
      obtain ⟨he, -, handleLabel, ops, hy, hl, hbody⟩ := typed
      obtain ⟨hhandle, hbound, operands⟩ := operands
      obtain ⟨hpc, hpch, hhb, placeable⟩ := placeable
      simp only [declared, List.forall_mem_cons] at sub
      have handleOf : b.expr.yield.label = some handleLabel := by rw [hy]; rfl
      have hpch : handleLabel ≤ env.pcLabel := hpch _ handleOf
      have hb : b.label ≤ l := hl ▸ le_min hpc (hhb _ handleOf)
      have hlabel : l = handleLabel := hl.trans (min_eq_right hpch)
      have yields : ∀ t, (letRemoteBinding .concrete handleLabel b).yield = some t ↔
          (⟨b.var, b.expr.yield, b.label, .remoteVar⟩ : TypeBinding L L).yield = some t :=
        fun t => Iff.rfl
      unfold collectPhase
      by_cases hk : l = k
      · subst hk
        have added : ∀ t, (letRemoteBinding .concrete handleLabel b).yield = some t →
            l ≤ (letRemoteBinding .concrete handleLabel b).bindingLabel .concrete →
            containsSubtype (remoteBinding b :: provides) b.var t = true :=
          fun t ht _ => containsSubtype_iff.mpr ⟨_, List.mem_cons_self .., rfl, (yields t).mp ht⟩
        obtain ⟨reqs, hreqs⟩ := visible.collectVar he
          (hlabel ▸ hhandle _ handleOf : l ≤ b.expr.label)
        obtain ⟨c', hc⟩ := ih (o := 0 :: o) hbody operands free placeable sub.2
          (around.cons_own (remoteBinding b)) ((visible.withPc _).extend added)
        rw [remoteBinding] at hc
        exact ⟨_, by simp [show FlowsTo l b.label from hb, hreqs, hc, bind, Except.bind]; rfl⟩
      · have added : ∀ t, (letRemoteBinding .concrete handleLabel b).yield = some t →
            k ≤ (letRemoteBinding .concrete handleLabel b).bindingLabel .concrete →
            containsSubtype inherits b.var t = true := by
          intro t ht hkb
          have below : (letRemoteBinding .concrete handleLabel b).bindingLabel .concrete ≤ l := by
            simp only [TypeBinding.bindingLabel, letRemoteBinding, hy, LabelAlgebra.concrete_meet,
              LabelAlgebra.concrete_conc, hlabel]
            exact min_le_right _ _
          have above : k < l := lt_of_le_of_ne (le_trans hkb below) (Ne.symm hk)
          exact containsSubtype_iff.mpr ⟨_, stronger sub.1 above, rfl, (yields t).mp ht⟩
        obtain ⟨c', hc⟩ := ih (o := 0 :: o) hbody operands free placeable sub.2
          (around.cons_other hk _) ((visible.withPc _).extend_inherited added)
        by_cases hflow : FlowsTo l k
        · have above : k < l := lt_of_le_of_ne hflow (Ne.symm hk)
          have there : ¬ inherits.find? (VarBinding.binds b.var b.yield) = none := by
            rw [List.find?_eq_none]
            intro h
            refine h _ (stronger sub.1 above) ?_
            simp [remoteBinding, VarBinding.binds, TypeBinding.yield, hy, Ty.pointee]
          by_cases hp : containsSubtype provides b.var b.yield = true
          · exact ⟨_, by simp [hk, hc, hflow, hp, bind, Except.bind]; rfl⟩
          · obtain ⟨r, hr⟩ := Option.ne_none_iff_exists'.mp there
            exact ⟨_, by simp [hk, hc, hflow, hp, hr, bind, Except.bind]; rfl⟩
        · exact ⟨_, by simp [hk, hc, hflow, bind, Except.bind]; rfl⟩
  | operation l name hd args =>
      obtain ⟨ret, hx, hargs, handleLabel, -, hl⟩ := typed
      unfold collectPhase
      by_cases hk : l = k
      · subst hk
        have operands := (LabelAlgebra.le_operationLabel_iff.mp hl.le).2.2
        obtain ⟨reqs, hreqs⟩ := visible.collectOperands hx hargs operands
        by_cases hname : Builtin.isBuiltinOper name = true
        · exact ⟨_, by simp [hreqs, hname, bind, Except.bind]; rfl⟩
        · exact ⟨_, by simp [hreqs, hname, bind, Except.bind]; rfl⟩
      · exact ⟨_, by simp [hk]; rfl⟩
  | assignment l target e =>
      obtain ⟨ht, he, -, hl⟩ := typed
      unfold collectPhase
      by_cases hk : l = k
      · subst hk
        have labels := le_min_iff.mp hl.le
        have labels' := le_min_iff.mp labels.1
        have vars : ∀ x ∈ [target.base, e], ∃ r, collectVar l inherits provides x = .ok r := by
          simp only [List.forall_mem_cons, List.not_mem_nil, IsEmpty.forall_iff, implies_true,
            and_true]
          exact ⟨visible.collectBase ht labels'.2, visible.collectVar he labels'.1⟩
        obtain ⟨reqs, hreqs⟩ := collectVars_ok vars
        exact ⟨_, by simp [hreqs, bind, Except.bind]; rfl⟩
      · by_cases hflow : FlowsTo l k
        · exact ⟨_, by simp [hk, hflow]; rfl⟩
        · exact ⟨_, by simp [hk, hflow]; rfl⟩
  | ret l e =>
      obtain ⟨he, hl⟩ := typed
      unfold collectPhase
      by_cases hk : l = k
      · subst hk
        obtain ⟨reqs, hreqs⟩ := visible.collectVar he (hl ▸ bot_le)
        exact ⟨_, by simp [hreqs, bind, Except.bind]; rfl⟩
      · exact ⟨_, by simp [hk]; rfl⟩
  | accompanyWrite l target =>
      obtain ⟨ht, e, he, hl⟩ := typed
      unfold collectPhase
      by_cases hk : l = k
      · subst hk
        have labels := le_min_iff.mp (le_min_iff.mp hl.le).1
        obtain ⟨reqs, hreqs⟩ := visible.collectBase ht labels.2
        exact ⟨_, by simp [hreqs, bind, Except.bind]; rfl⟩
      · exact ⟨_, by simp [hk]; rfl⟩
  | writeTombstone l e =>
      obtain ⟨-, hle, -⟩ := typed
      unfold collectPhase
      by_cases hk : l = k
      · subst hk
        have hv := (around.available (x := e)).mp placeable
        obtain ⟨reqs, hreqs⟩ := collectVar_ok_iff.mpr (hv.imp_right fun h => ⟨hle.ge, h⟩)
        exact ⟨_, by simp [hreqs, bind, Except.bind]; rfl⟩
      · exact ⟨_, by simp [hk]; rfl⟩
  | ifThen l x t e iht ihe =>
      obtain ⟨hx, -, hl, ht, he⟩ := typed
      simp only [declared, List.mem_append] at sub
      unfold collectPhase
      by_cases hflow : FlowsTo l k
      · obtain ⟨reqs, hreqs⟩ := visible.collectVar hx
          (le_trans hflow (hl.le.trans (min_le_right _ _)))
        obtain ⟨ct, hct⟩ := iht (o := 0 :: o) ht operands.1 free.1 placeable.1
          (fun d hd => sub d (Or.inl hd)) around (visible.withPc _)
        obtain ⟨ce, hce⟩ := ihe (o := 1 :: o) he operands.2 free.2 placeable.2
          (fun d hd => sub d (Or.inr hd)) around (visible.withPc _)
        exact ⟨_, by simp [hflow, hreqs, hct, hce, bind, Except.bind]; rfl⟩
      · exact ⟨_, by simp [hflow]; rfl⟩
  | whileLoop l name x body ih =>
      obtain ⟨hx, -, hl, hbody⟩ := typed
      simp only [declared, List.mem_append, List.mem_singleton] at sub
      obtain ⟨c', hc⟩ := ih (o := 0 :: o) hbody operands free placeable
        (fun d hd => sub d (Or.inl hd)) around (visible.withPc _)
      unfold collectPhase
      by_cases hk : l = k
      · subst hk
        obtain ⟨reqs, hreqs⟩ := visible.collectVar hx (hl.le.trans (min_le_right _ _))
        exact ⟨_, by simp [hreqs, hc, bind, Except.bind]; rfl⟩
      · by_cases hflow : FlowsTo l k
        · have above : k < l := lt_of_le_of_ne hflow (Ne.symm hk)
          have there : VarBinding.loop name ∈ inherits := stronger (sub _ (Or.inr rfl)) above
          exact ⟨_, by simp [hk, hflow, there, hc, bind, Except.bind]; rfl⟩
        · exact ⟨_, by simp [hk, hflow]; rfl⟩
  | nil l => exact ⟨_, rfl⟩
  | cons l first rest ihf ihr =>
      obtain ⟨-, hf, hr⟩ := typed
      simp only [declared, List.mem_append] at sub
      obtain ⟨cf, hcf⟩ := ihf (o := 0 :: o) hf operands.1 free.1 placeable.1
        (fun d hd => sub d (Or.inl hd)) around visible
      obtain ⟨cr, hcr⟩ := ihr (o := 1 :: o) hr operands.2 free.2 placeable.2
        (fun d hd => sub d (Or.inr hd)) around visible
      unfold collectPhase
      exact ⟨_, by simp [hcf, hcr, bind, Except.bind]; rfl⟩

end Succeeds

section Effects

variable {L : Type*} [LinearOrder L] [BoundedOrder L] {host : HostTypes L} {binder : L → Prop}
  {start : List (VarBinding L)} {all scope : List (L × VarBinding L)}

theorem operationSignature_label {name : OperName} {handle ret : Ty L} {args : List (Ty L)}
    {l : L} (h : operationSignature host name handle args = some (l, ret)) :
    handle.label = some l := by
  unfold operationSignature at h
  split at h
  · split at h
    · rename_i hty
      simp only [Option.some.injEq, Prod.mk.injEq] at h
      rw [hty, ← h.1]
      rfl
    · simp at h
  · obtain ⟨l', hl', h⟩ := Option.bind_eq_some_iff.mp h
    rw [hl']
    split at h
    · simp only [Option.pure_def, Option.some.injEq, Prod.mk.injEq] at h
      rw [h.1]
    · obtain ⟨t, -, h⟩ := Option.bind_eq_some_iff.mp h
      simp only [Option.pure_def, Option.some.injEq, Prod.mk.injEq] at h
      rw [h.1]

/-- An operation whose operands flow to its handle: its label, and the handle's. -/
theorem TypedOperation.labels {env : TypeEnv L L} {label : L} {ret : Ty L} {name : OperName}
    {h : VarRef L L} {args : List (VarRef L L)}
    (typed : TypedOperation .concrete host env label ret name h args)
    (flows : ∀ x ∈ h :: args, FlowsToHandle x.label h.yield) :
    ∃ handleLabel, h.yield.label = some handleLabel ∧ label = min env.pcLabel handleLabel := by
  obtain ⟨-, -, handleLabel, hsig, rfl⟩ := typed
  have hlabel := operationSignature_label hsig
  exact ⟨handleLabel, hlabel, LabelAlgebra.operationLabel_eq fun y hy => flows y hy _ hlabel⟩

theorem mem_onHandle {o : Origin} {handle : Ty L} {e : Origin × L} :
    e ∈ onHandle o handle ↔ e.1 = o ∧ handle.label = some e.2 := by
  obtain ⟨p, l⟩ := e
  cases h : handle.label with
  | none => simp [onHandle, h]
  | some l' => simp [onHandle, h, eq_comm, and_comm]

/-- Each effect on a handle is a statement with the handle's label. -/
theorem handleEffects_placed {env : TypeEnv L L} {s : Statement L L} {o : Origin}
    (typed : Typed .concrete host binder env s) (operands : s.OperandsFlow)
    (placeable : Placeable start all env.pcLabel scope s) :
    ∀ e ∈ handleEffects o scope s, e ∈ places o s := by
  induction s generalizing env o scope with
  | letIn l b body ih =>
      obtain ⟨he, -, -, -, hl, hbody⟩ := typed
      obtain ⟨hexpr, -, operands⟩ := operands
      obtain ⟨-, hplace, placeable⟩ := placeable
      intro e hmem
      simp only [handleEffects, List.mem_append] at hmem
      obtain hmem | hmem := hmem
      · split at hmem
        · rename_i name h args hform
          obtain ⟨hp, hhandle⟩ := mem_onHandle.mp hmem
          rw [hform] at hplace hexpr
          simp only [TypedExpr, hform, TypedForm] at he
          obtain ⟨handleLabel, hlabel, hmin⟩ := TypedOperation.labels he hexpr
          obtain rfl : handleLabel = e.2 := by simpa [hlabel] using hhandle
          have same : l = e.2 := by
            rw [hl, hmin, LabelAlgebra.concrete_meet, min_eq_right (hplace _ hlabel),
              min_eq_left (hplace _ hlabel)]
          exact List.mem_cons.mpr (Or.inl (Prod.ext hp same.symm))
        · simp at hmem
      · exact List.mem_cons_of_mem _ (ih (o := 0 :: o) hbody operands placeable e hmem)
  | letRemote l b body ih =>
      obtain ⟨he, -, handleLabel, ops, hy, hl, hbody⟩ := typed
      obtain ⟨-, -, operands⟩ := operands
      obtain ⟨-, hpc, -, placeable⟩ := placeable
      intro e hmem
      simp only [handleEffects, List.mem_append] at hmem
      obtain hmem | hmem := hmem
      · obtain ⟨hp, hhandle⟩ := mem_onHandle.mp hmem
        have handleOf : b.expr.yield.label = some handleLabel := by rw [hy]; rfl
        obtain rfl : handleLabel = e.2 := by simpa [handleOf] using hhandle
        have same : l = e.2 := hl.trans (min_eq_right (hpc _ handleOf))
        exact List.mem_cons.mpr (Or.inl (Prod.ext hp same.symm))
      · exact List.mem_cons_of_mem _ (ih (o := 0 :: o) hbody operands placeable e hmem)
  | operation l name h args =>
      obtain ⟨ret, hop⟩ := typed
      intro e hmem
      obtain ⟨hp, hhandle⟩ := mem_onHandle.mp hmem
      obtain ⟨handleLabel, hlabel, hmin⟩ := TypedOperation.labels hop operands
      obtain rfl : handleLabel = e.2 := by simpa [hlabel] using hhandle
      have same : l = e.2 := hmin.trans (min_eq_right (placeable _ hlabel))
      exact List.mem_singleton.mpr (Prod.ext hp same.symm)
  | assignment l target x =>
      obtain ⟨ht, -, -, hl⟩ := typed
      intro e hmem
      simp only [handleEffects] at hmem
      split at hmem
      · rename_i hremote
        obtain rfl := List.mem_singleton.mp hmem
        have base : target.label = target.base.label := by
          cases target with
          | var x => rfl
          | field m t struct f => exact ht.2.2
        have hflow : target.label ≤ x.label := operands
        have hpc : target.label ≤ env.pcLabel := base ▸ placeable hremote
        have same : l = target.base.label := by
          rw [hl, LabelAlgebra.concrete_meet, LabelAlgebra.concrete_meet, min_eq_right hflow,
            min_eq_left hpc, base]
        exact List.mem_singleton.mpr (Prod.ext rfl same.symm)
      · simp at hmem
  | ifThen l x t e iht ihe =>
      obtain ⟨-, -, -, ht, he⟩ := typed
      intro f hmem
      simp only [handleEffects, places, List.mem_append] at hmem ⊢
      exact hmem.imp (iht (o := 0 :: o) ht operands.1 placeable.1 f)
        (ihe (o := 1 :: o) he operands.2 placeable.2 f)
  | whileLoop l name x body ih => exact ih typed.2.2.2 operands placeable
  | cons l first rest ihf ihr =>
      obtain ⟨-, hf, hr⟩ := typed
      intro e hmem
      simp only [handleEffects, places, List.mem_append] at hmem ⊢
      exact hmem.imp (ihf (o := 0 :: o) hf operands.1 placeable.1 e)
        (ihr (o := 1 :: o) hr operands.2 placeable.2 e)
  | _ => simp [handleEffects]

variable {k : L} {inherits provides : List (VarBinding L)}

/-- A phase refreshes objects behind handles of its label. -/
theorem refreshed_label {env : TypeEnv L L} {s : Statement L L} {o : Origin} {c : Collected L}
    (typed : Typed .concrete host binder env s) (operands : s.OperandsFlow)
    (placeable : Placeable start all env.pcLabel scope s)
    (h : collectPhase k inherits o provides s = .ok c) :
    ∀ x ∈ c.ast.refreshed, x.yield.label = some k := by
  induction s generalizing env o provides scope c with
  | letIn l b body ih =>
      obtain ⟨he, -, -, -, hl, hbody⟩ := typed
      obtain ⟨hexpr, -, operands⟩ := operands
      obtain ⟨-, hplace, placeable⟩ := placeable
      obtain ⟨rfl, -, reqs, c', -, hc, rfl⟩ | ⟨-, c', hc, rfl⟩ := collectPhase_letIn h
      · have inBody := ih hbody operands placeable hc
        intro x hx
        simp only [letAstIfOperation] at hx
        split at hx
        · rename_i name hd args hform
          simp only [Stmt.refreshed, List.append_nil, List.mem_append, List.mem_singleton] at hx
          obtain hx | rfl := hx
          · exact inBody x hx
          · rw [hform] at hplace hexpr
            simp only [TypedExpr, hform, TypedForm] at he
            obtain ⟨handleLabel, hlabel, hmin⟩ := TypedOperation.labels he hexpr
            have same : l = handleLabel := by
              rw [hl, hmin, LabelAlgebra.concrete_meet, min_eq_right (hplace _ hlabel),
                min_eq_left (hplace _ hlabel)]
            exact hlabel.trans (congrArg some same.symm)
        · exact inBody x hx
      · intro x hx
        simp only [Stmt.refreshed, List.nil_append, List.append_nil] at hx
        exact ih hbody operands placeable hc x hx
  | letRemote l b body ih =>
      obtain ⟨he, -, handleLabel, ops, hy, hl, hbody⟩ := typed
      obtain ⟨-, -, operands⟩ := operands
      obtain ⟨-, -, -, placeable⟩ := placeable
      obtain ⟨rfl, -, reqs, c', -, hc, rfl⟩ | ⟨-, c', hc, ⟨-, reqs, -, rfl⟩ | ⟨-, rfl⟩⟩ :=
        collectPhase_letRemote h
      · intro x hx
        exact ih hbody operands placeable hc x hx
      · intro x hx
        simp only [Stmt.refreshed, List.nil_append, List.append_nil] at hx
        exact ih hbody operands placeable hc x hx
      · intro x hx
        exact ih hbody operands placeable hc x hx
  | operation l name hd args =>
      obtain ⟨ret, hop⟩ := typed
      obtain ⟨rfl, reqs, -, rfl⟩ | ⟨-, rfl⟩ := collectPhase_operation h
      · obtain ⟨handleLabel, hlabel, hmin⟩ := TypedOperation.labels hop operands
        have same : l = handleLabel := hmin.trans (min_eq_right (placeable _ hlabel))
        intro x hx
        split at hx
        · simp [Stmt.refreshed] at hx
        · simp only [Stmt.refreshed, List.nil_append, List.append_nil, List.mem_singleton] at hx
          rw [hx]
          exact hlabel.trans (congrArg some same.symm)
      · simp [Stmt.refreshed]
  | assignment l target e =>
      obtain ⟨-, reqs, -, rfl⟩ | ⟨-, rfl⟩ := collectPhase_assignment h
      · simp [Stmt.refreshed]
      · split <;> simp [Stmt.refreshed]
  | ret l e =>
      obtain ⟨-, reqs, -, rfl⟩ | ⟨-, rfl⟩ := collectPhase_ret h <;> simp [Stmt.refreshed]
  | accompanyWrite l target =>
      obtain ⟨-, reqs, -, rfl⟩ | ⟨-, rfl⟩ := collectPhase_accompanyWrite h <;> simp [Stmt.refreshed]
  | writeTombstone l e =>
      obtain ⟨-, reqs, -, rfl⟩ | ⟨-, rfl⟩ := collectPhase_writeTombstone h <;> simp [Stmt.refreshed]
  | ifThen l x t e iht ihe =>
      obtain ⟨-, -, -, ht, he⟩ := typed
      obtain ⟨-, reqs, ct, ce, -, hct, hce, rfl⟩ | ⟨-, rfl⟩ := collectPhase_ifThen h
      · simp only [Stmt.refreshed, List.mem_append]
        rintro y (hy | hy)
        · exact iht ht operands.1 placeable.1 hct y hy
        · exact ihe he operands.2 placeable.2 hce y hy
      · simp [Stmt.refreshed]
  | whileLoop l name x body ih =>
      obtain ⟨-, -, -, hbody⟩ := typed
      obtain ⟨-, reqs, c', -, hc, rfl⟩ | ⟨-, -, -, c', hc, rfl⟩ | ⟨-, -, rfl⟩ :=
        collectPhase_whileLoop h
      · intro x hx
        exact ih hbody operands placeable hc x hx
      · intro x hx
        exact ih hbody operands placeable hc x hx
      · simp [Stmt.refreshed]
  | nil l =>
      obtain rfl := collectPhase_nil h
      simp [Stmt.refreshed]
  | cons l first rest ihf ihr =>
      obtain ⟨-, hf, hr⟩ := typed
      obtain ⟨cf, cr, hcf, hcr, rfl⟩ := collectPhase_cons h
      simp only [Stmt.refreshed_collapse, Stmt.refreshed, List.mem_append]
      rintro y (hy | hy)
      · exact ihf hf operands.1 placeable.1 hcf y hy
      · exact ihr hr operands.2 placeable.2 hcr y hy

/-- If each phase can be collected and effects have the labels of their handles, then
the label of the environment flows as it must. -/
theorem placeable_of_collected {env : TypeEnv L L} {s : Statement L L} {o : Origin} {ks : List L}
    (typed : Typed .concrete host binder env s) (operands : s.OperandsFlow)
    (collected : ∀ k ∈ ks, k ≤ env.pcLabel → ∃ inherits provides c,
      Around k start all scope inherits provides ∧ collectPhase k inherits o provides s = .ok c)
    (labels : ∀ p ∈ places o s, p.2 ∈ ks)
    (placed : ∀ e ∈ handleEffects o scope s, ∀ l, (e.1, l) ∈ places o s → l = e.2) :
    Placeable start all env.pcLabel scope s := by
  have below := (typed_below typed o).1
  induction s generalizing env o scope with
  | letIn l b body ih =>
      obtain ⟨he, -, -, -, hl, hbody⟩ := typed
      obtain ⟨hexpr, -, operands⟩ := operands
      simp only [places, List.mem_cons, forall_eq_or_imp] at labels below placed
      simp only [handleEffects, List.mem_append] at placed
      obtain ⟨inherits, provides, c, around, hc⟩ := collected l labels.1 below.1
      obtain ⟨-, hflow, reqs, c', hreqs, -, -⟩ | ⟨hne, -⟩ := collectPhase_letIn hc
      · refine ⟨hflow.trans below.1, ?_, ?_⟩
        · split
          · rename_i name h args hform
            rw [hform] at hexpr
            simp only [TypedExpr, hform, TypedForm] at he
            obtain ⟨handleLabel, hlabel, hmin⟩ := TypedOperation.labels he hexpr
            intro m hm
            obtain rfl : handleLabel = m := by simpa [hlabel] using hm
            have same : l = handleLabel := placed (o, handleLabel)
              (Or.inl (by rw [hform]; exact mem_onHandle.mpr ⟨rfl, hlabel⟩)) l (Or.inl rfl)
            exact same.ge.trans below.1
          · rename_i x hform
            have hx : ∃ r, collectVar l inherits provides ⟨b.expr.label, b.expr.yield, x⟩ = .ok r :=
              ⟨reqs, by simpa [collectExpr, hform] using hreqs⟩
            exact (around.available (x := ⟨b.expr.label, b.expr.yield, x⟩)).mpr
              ((collectVar_ok_iff.mp hx).imp_right And.right)
          · trivial
        · show Placeable start all (env.extend (letBinding b)).pcLabel _ body
          refine ih (o := 0 :: o) hbody operands ?_ labels.2
            (fun e he m hm => placed e (Or.inr he) m (Or.inr hm)) (typed_below hbody (0 :: o)).1
          intro k hk hpc
          obtain ⟨inherits, provides, c, around, hc⟩ := collected k hk hpc
          obtain ⟨rfl, -, -, c', -, hc, -⟩ | ⟨hne, c', hc, -⟩ := collectPhase_letIn hc
          · exact ⟨_, _, c', around.cons_own _, hc⟩
          · exact ⟨_, _, c', around.cons_other hne _, hc⟩
      · exact absurd rfl hne
  | letRemote l b body ih =>
      obtain ⟨he, -, handleLabel, ops, hy, hl, hbody⟩ := typed
      obtain ⟨-, -, operands⟩ := operands
      simp only [places, List.mem_cons, forall_eq_or_imp] at labels below placed
      simp only [handleEffects, List.mem_append] at placed
      have handleOf : b.expr.yield.label = some handleLabel := by rw [hy]; rfl
      have same : l = handleLabel :=
        placed (o, handleLabel) (Or.inl (mem_onHandle.mpr ⟨rfl, handleOf⟩)) l (Or.inl rfl)
      obtain ⟨inherits, provides, c, around, hc⟩ := collected l labels.1 below.1
      obtain ⟨-, hflow, -⟩ | ⟨hne, -⟩ := collectPhase_letRemote hc
      · refine ⟨hflow.trans below.1, ?_, ?_, ?_⟩
        · intro m hm
          obtain rfl : handleLabel = m := by simpa [handleOf] using hm
          exact same.ge.trans below.1
        · intro m hm
          obtain rfl : handleLabel = m := by simpa [handleOf] using hm
          exact hflow.trans same.le
        · refine ih (o := 0 :: o) hbody operands ?_ labels.2
            (fun e he m hm => placed e (Or.inr he) m (Or.inr hm)) (typed_below hbody (0 :: o)).1
          intro k hk hpc
          obtain ⟨inherits, provides, c, around, hc⟩ := collected k hk (hpc.trans (min_le_left _ _))
          obtain ⟨rfl, -, -, c', -, hc, -⟩ | ⟨hne, c', hc, -⟩ := collectPhase_letRemote hc
          · exact ⟨_, _, c', around.cons_own _, hc⟩
          · exact ⟨_, _, c', around.cons_other hne _, hc⟩
      · exact absurd rfl hne
  | operation l name h args =>
      obtain ⟨ret, hop⟩ := typed
      intro m hm
      have same : l = m := placed (o, m) (mem_onHandle.mpr ⟨rfl, hm⟩) l (List.mem_singleton_self _)
      exact same.ge.trans (below _ (List.mem_singleton_self _))
  | assignment l target x =>
      intro hremote
      have same : l = target.base.label :=
        placed (o, target.base.label) (by simp [handleEffects, hremote]) l
          (List.mem_singleton_self _)
      exact same.ge.trans (below _ (List.mem_singleton_self _))
  | writeTombstone l e =>
      obtain ⟨inherits, provides, c, around, hc⟩ := collected l (labels _ (List.mem_singleton_self _))
        (below _ (List.mem_singleton_self _))
      obtain ⟨-, reqs, hreqs, -⟩ | ⟨hne, -⟩ := collectPhase_writeTombstone hc
      · exact (around.available (x := e)).mpr
          ((collectVar_ok_iff.mp ⟨reqs, hreqs⟩).imp_right And.right)
      · exact absurd rfl hne
  | ifThen l x t e iht ihe =>
      obtain ⟨-, -, hl, ht, he⟩ := typed
      simp only [places, handleEffects, List.mem_append] at labels placed below
      have branches : ∀ k ∈ ks, k ≤ min x.label env.pcLabel → ∃ inherits provides ct ce,
          Around k start all scope inherits provides ∧
          collectPhase k inherits (0 :: o) provides t = .ok ct ∧
          collectPhase k inherits (1 :: o) provides e = .ok ce := by
        intro k hk hpc
        obtain ⟨inherits, provides, c, around, hc⟩ := collected k hk (hpc.trans (min_le_right _ _))
        obtain ⟨-, reqs, ct, ce, -, hct, hce, -⟩ | ⟨hflow, -⟩ := collectPhase_ifThen hc
        · exact ⟨inherits, provides, ct, ce, around, hct, hce⟩
        · exact absurd (hpc.trans (min_comm x.label _ ▸ hl.ge) : k ≤ l) hflow
      constructor
      · refine iht (o := 0 :: o) ht operands.1 ?_ (fun p hp => labels p (Or.inl hp))
          (fun f hf m hm => placed f (Or.inl hf) m (Or.inl hm)) (typed_below ht (0 :: o)).1
        intro k hk hpc
        obtain ⟨inherits, provides, ct, ce, around, hct, -⟩ := branches k hk hpc
        exact ⟨inherits, provides, ct, around, hct⟩
      · refine ihe (o := 1 :: o) he operands.2 ?_ (fun p hp => labels p (Or.inr hp))
          (fun f hf m hm => placed f (Or.inr hf) m (Or.inr hm)) (typed_below he (1 :: o)).1
        intro k hk hpc
        obtain ⟨inherits, provides, ct, ce, around, -, hce⟩ := branches k hk hpc
        exact ⟨inherits, provides, ce, around, hce⟩
  | whileLoop l name x body ih =>
      obtain ⟨-, -, hl, hbody⟩ := typed
      refine ih (o := 0 :: o) hbody operands ?_ labels placed (typed_below hbody (0 :: o)).1
      intro k hk hpc
      have hpc : k ≤ min x.label env.pcLabel := hpc
      obtain ⟨inherits, provides, c, around, hc⟩ := collected k hk (hpc.trans (min_le_right _ _))
      obtain ⟨-, reqs, c', -, hc, -⟩ | ⟨-, -, -, c', hc, -⟩ | ⟨-, hflow, -⟩ :=
        collectPhase_whileLoop hc
      · exact ⟨inherits, provides, c', around, hc⟩
      · exact ⟨inherits, provides, c', around, hc⟩
      · exact absurd (hpc.trans (min_comm x.label _ ▸ hl.ge) : k ≤ l) hflow
  | cons l first rest ihf ihr =>
      obtain ⟨-, hf, hr⟩ := typed
      simp only [places, handleEffects, List.mem_append] at labels placed below
      constructor
      · refine ihf (o := 0 :: o) hf operands.1 ?_ (fun p hp => labels p (Or.inl hp))
          (fun f hf m hm => placed f (Or.inl hf) m (Or.inl hm)) (typed_below hf (0 :: o)).1
        intro k hk hpc
        obtain ⟨inherits, provides, c, around, hc⟩ := collected k hk hpc
        obtain ⟨cf, cr, hcf, -, -⟩ := collectPhase_cons hc
        exact ⟨inherits, provides, cf, around, hcf⟩
      · refine ihr (o := 1 :: o) hr operands.2 ?_ (fun p hp => labels p (Or.inr hp))
          (fun f hf m hm => placed f (Or.inr hf) m (Or.inr hm)) (typed_below hr (1 :: o)).1
        intro k hk hpc
        obtain ⟨inherits, provides, c, around, hc⟩ := collected k hk hpc
        obtain ⟨cf, cr, -, hcr, -⟩ := collectPhase_cons hc
        exact ⟨inherits, provides, cr, around, hcr⟩
  | _ => trivial

end Effects

section Placement

variable {L : Type*} [LinearOrder L] [BoundedOrder L] {host : HostTypes L} {binder : L → Prop}
  {sorting : ComparisonSort} {inputs : List (VarName × Ty L)} {named : Statement L L}

/-- At the top of the program a phase inherits the inputs and what stronger phases bind. -/
theorem around_top {k : L} {inherits : List (VarBinding L)}
    (h : Inherits named ((startBindings inputs).map .type) (phaseLabels sorting named) k inherits) :
    Around k ((startBindings inputs).map .type) (declared named) [] inherits [] := by
  refine ⟨fun v => (h v).trans (or_congr Iff.rfl ?_), fun v => by simp⟩
  constructor
  · rintro ⟨d, hd, -, hk, rfl⟩
    exact ⟨d, hd, hk, rfl⟩
  · rintro ⟨d, hd, hk, rfl⟩
    exact ⟨d, hd, mem_phaseLabels.mpr (label_of_declared d hd), hk, rfl⟩

theorem visible_top {k : L} {all scope : List (L × VarBinding L)}
    {inherits provides : List (VarBinding L)}
    (around : Around k ((startBindings inputs).map .type) all scope inherits provides) :
    Visible k inherits provides (startEnv inputs) := by
  intro b hb t ht _
  refine Or.inr (Or.inr (containsSubtype_iff.mpr ⟨b, ?_, rfl, ht⟩))
  exact (around.inherited _).mpr (Or.inl (List.mem_map_of_mem hb))

/-- A typed program whose operands flow splits well exactly when the label of the
environment flows to each handle and each binding. -/
theorem splitsWell_iff (typed : Typed .concrete host binder (startEnv inputs) named)
    (operands : named.OperandsFlow) (free : named.EndorseFree) :
    SplitsWell sorting inputs named ↔
      Placeable ((startBindings inputs).map .type) (declared named) ⊤ [] named := by
  have sorted : (phaseLabels sorting named).Pairwise (· > ·) := phaseLabels_sorted sorting
  constructor
  · rintro ⟨phases, hsplit, heffects, -⟩
    obtain ⟨hlabels, hphases⟩ := splitLabels_ok typed sorted hsplit
    have phaseOf : ∀ k ∈ phaseLabels sorting named, ∃ P ∈ phases, P.label = k := by
      intro k hk
      rw [← hlabels] at hk
      exact List.mem_map.mp hk
    have labels : ∀ p ∈ places [] named, p.2 ∈ phaseLabels sorting named :=
      fun p hp => mem_phaseLabels.mpr (label_of_places p hp)
    refine placeable_of_collected typed operands ?_ labels ?_
    · intro k hk _
      obtain ⟨P, hP, rfl⟩ := phaseOf k hk
      obtain ⟨inherits, c, hinh, hc, -⟩ := hphases P hP
      exact ⟨inherits, [], c, around_top hinh, hc⟩
    · intro e he l hl
      -- the phase of the statement's label does it, so it is the phase of the handle
      obtain ⟨P, hP, rfl⟩ := phaseOf l (mem_phaseLabels.mpr (label_of_places _ hl))
      obtain ⟨inherits, c, -, hc, hfinal⟩ := hphases P hP
      refine ((heffects e he).2 P hP).mp ?_
      rw [hfinal, kept_finalPhase, (collectPhase_own typed hc).1, mem_ofLabel]
      exact List.mem_map.mpr ⟨_, hl, rfl⟩
  · intro placeable
    have collected : ∀ k ∈ phaseLabels sorting named, ∀ inherits,
        Inherits named ((startBindings inputs).map .type) (phaseLabels sorting named) k inherits →
        ∃ c, collectPhase k inherits [] [] named = .ok c := by
      intro k _ inherits hinh
      have around := around_top hinh
      exact collectPhase_succeeds typed operands free placeable (fun d hd => hd) around
        (visible_top around)
    obtain ⟨phases, hsplit⟩ := splitLabels_succeeds typed sorted collected
    obtain ⟨hlabels, hphases⟩ := splitLabels_ok typed sorted hsplit
    refine ⟨phases, hsplit, fun e he => ?_, fun P hP h hh => ?_⟩
    · have hplace := handleEffects_placed typed operands placeable e he
      constructor
      · have hl : e.2 ∈ phases.map Prephase.label :=
          hlabels ▸ mem_phaseLabels.mpr (label_of_places _ hplace)
        exact List.mem_map.mp hl
      · intro P hP
        obtain ⟨inherits, c, -, hc, hfinal⟩ := hphases P hP
        rw [hfinal, kept_finalPhase, (collectPhase_own typed hc).1, mem_ofLabel]
        constructor
        · intro hmem
          obtain ⟨⟨p, l⟩, hp, heq⟩ := List.mem_map.mp hmem
          simp only [Prod.swap_prod_mk, Prod.mk.injEq] at heq
          obtain ⟨rfl, rfl⟩ := heq
          exact places_functional hp hplace
        · intro hlabel
          exact List.mem_map.mpr ⟨e, hplace, Prod.ext hlabel.symm rfl⟩
    · obtain ⟨inherits, c, -, hc, hfinal⟩ := hphases P hP
      rw [hfinal] at hh
      exact refreshed_label typed operands placeable hc h (refreshed_finalPhase h hh)

/-- For every accepted program without endorsements that the naming pass takes: it splits
with each effect where its object lives if and only if the label of the environment flows
to the labels of the handles it uses and the bindings it makes. -/
theorem accepted_splitsWell_iff (sorting : ComparisonSort) (host : HostTypes L)
    (lookup : Lookup (Label L) L) (inputs : List (VarName × Ty L)) (body : Parsed.Stmt L)
    (prog named : Statement L L) (accepted : Inference.Accepted sorting host lookup inputs body prog)
    (free : prog.EndorseFree) (hnamed : easyProcessingPass prog = .ok named) :
    SplitsWell sorting inputs named ↔
      Placeable ((startBindings inputs).map .type) (declared named) ⊤ [] named := by
  obtain ⟨typed, operands⟩ := accepted.typed
  exact splitsWell_iff (easyProcessing_typed hnamed typed)
    (easyProcessing_operandsFlow hnamed operands) (easyProcessing_endorseFree hnamed free)

end Placement

end MixT.Split
