import MixT.Flatten.Meaning

/-! # Variables that a program does not mention

A program runs alike whatever the variables hold that it does not mention, and leaves what they
hold. -/

namespace MixT.Flatten

open Library Library.Eff

section Off

variable {V : Type} {D D' : Name → Prop} {c c' c'' : Cells V}

/-- The variables hold the same, but for those of `D`. -/
def Off (D : Name → Prop) (c c' : Cells V) : Prop := ∀ x, ¬ D x → c x = c' x

theorem Off.refl (c : Cells V) : Off D c c := fun _ _ => rfl

theorem Off.symm (h : Off D c c') : Off D c' c := fun x hx => (h x hx).symm

theorem Off.trans (h : Off D c c') (h' : Off D c' c'') : Off D c c'' :=
  fun x hx => (h x hx).trans (h' x hx)

theorem Off.mono (h : Off D c c') (sub : ∀ x, D x → D' x) : Off D' c c' :=
  fun x hx => h x fun hD => hx (sub x hD)

theorem Off.update (h : Off D c c') (x : Name) (v : Cell V) :
    Off D (Function.update c x v) (Function.update c' x v) := by
  intro y hy
  by_cases same : y = x
  · subst same
    simp
  · simp [same, h y hy]

theorem off_update {x : Name} (hx : D x) (c : Cells V) (v : Cell V) :
    Off D c (Function.update c x v) := by
  intro y hy
  have other : y ≠ x := by
    rintro rfl
    exact hy hx
  simp [other]

theorem first_refl {T : Type} (s : Cells V × T) : First (Off D) s s := ⟨.refl _, rfl⟩

theorem first_symm {T : Type} (s t : Cells V × T) (h : First (Off D) s t) : First (Off D) t s :=
  ⟨h.1.symm, h.2.symm⟩

theorem first_trans {T : Type} (s t u : Cells V × T) (h : First (Off D) s t)
    (h' : First (Off D) t u) : First (Off D) s u := ⟨h.1.trans h'.1, h.2.trans h'.2⟩

variable {d d' : Cells V}

/-- As `Off`, where the variables of `D` hold something given. -/
def Fixed (D : Name → Prop) (d d' c c' : Cells V) : Prop :=
  Off D c c' ∧ ∀ x, D x → c x = d x ∧ c' x = d' x

theorem Fixed.update (h : Fixed D d d' c c') {x : Name} (hx : ¬ D x) (v : Cell V) :
    Fixed D d d' (Function.update c x v) (Function.update c' x v) := by
  refine ⟨h.1.update x v, fun y hy => ?_⟩
  have other : y ≠ x := by
    rintro rfl
    exact hx hy
  simp [other, h.2 y hy]

end Off

/-- The operand is no variable of `D`. -/
def Operand.Spares {V : Type} (D : Name → Prop) : Operand V → Prop
  | .var x => ¬ D x
  | .cell _ => True

namespace Machine

variable {V K F Sh : Type} [Inhabited V] [DecidableEq K] (M : Machine V K F Sh)
  {D : Name → Prop} {cells cells' : Cells V}

section Expressions

/-- The same operand, which is no variable of `D`. -/
def Same (D : Name → Prop) (o o' : Operand V) : Prop := o = o' ∧ o.Spares D

omit [Inhabited V] [DecidableEq K] in
theorem sim_cell {α : Type} (a : Eval V K F Sh α) (f : α → Cell V) :
    Sim Eq (Same D) (a >>= fun v => pure (.cell (f v))) (a >>= fun v => pure (.cell (f v))) := by
  refine Sim.bind (sim_refl a) ?_
  rintro v _ rfl
  exact sim_pure ⟨rfl, trivial⟩

variable (off : Off D cells cells')

include off

omit [Inhabited V] [DecidableEq K] in
theorem read_off {o : Operand V} (spares : o.Spares D) : M.read cells o = M.read cells' o := by
  cases o with
  | cell c => rfl
  | var x => simp only [read, off x spares]

omit [Inhabited V] [DecidableEq K] in
theorem readAll_off {os : List (Operand V)} (spares : ∀ o ∈ os, o.Spares D) :
    M.readAll cells os = M.readAll cells' os := by
  induction os with
  | nil => rfl
  | cons o os ih =>
      rw [readAll, readAll, M.read_off off (spares o List.mem_cons_self),
        ih fun o ho => spares o (List.mem_cons_of_mem _ ho)]

omit [Inhabited V] in
theorem deref_off {o : Operand V} (spares : o.Spares D) : M.deref cells o = M.deref cells' o := by
  rw [deref, deref, M.read_off off spares]

omit [Inhabited V] [DecidableEq K] in
theorem binary_off (op : BinOperator) {l l' r r' : Eval V K F Sh (Operand V)}
    (left : Sim Eq (Same D) l l') (right : Sim Eq (Same D) r r') :
    Sim Eq Eq (M.binary cells op l r) (M.binary cells' op l' r') := by
  have value : ∀ {e e' : Eval V K F Sh (Operand V)}, Sim Eq (Same D) e e' → ∀ f : V → V,
      Sim Eq Eq (do let o ← e; let v ← M.read cells o; pure (f v))
        (do let o ← e'; let v ← M.read cells' o; pure (f v)) := by
    intro e e' same f
    refine Sim.bind same ?_
    rintro o _ ⟨rfl, spares⟩
    rw [M.read_off off spares]
    exact sim_refl _
  cases op with
  | and =>
      refine Sim.bind left ?_
      rintro o _ ⟨rfl, spares⟩
      rw [M.read_off off spares]
      refine Sim.bind (sim_refl _) ?_
      rintro v _ rfl
      split
      · exact value right _
      · exact sim_pure rfl
  | or =>
      refine Sim.bind left ?_
      rintro o _ ⟨rfl, spares⟩
      rw [M.read_off off spares]
      refine Sim.bind (sim_refl _) ?_
      rintro v _ rfl
      split
      · exact sim_pure rfl
      · exact value right _
  | _ =>
      refine Sim.bind left ?_
      rintro o _ ⟨rfl, spares⟩
      refine Sim.bind right ?_
      rintro o' _ ⟨rfl, spares'⟩
      rw [M.read_off off spares, M.read_off off spares']
      exact sim_refl _

omit off

mutual

/-- An expression stands for the same, whatever other variables hold. -/
theorem eval_off (off : Off D cells cells') : ∀ {e : Expr}, (∀ x ∈ e.mentioned, ¬ D x) →
    Sim Eq (Same D) (M.eval cells e) (M.eval cells' e)
  | .varReference x, avoids => sim_pure ⟨rfl, avoids x List.mem_cons_self⟩
  | .constant i, _ => sim_pure ⟨rfl, trivial⟩
  | .fieldReference e f, avoids => by
      refine Sim.bind (eval_off (e := e) off avoids) ?_
      rintro o _ ⟨rfl, spares⟩
      rw [M.read_off off spares]
      exact sim_cell _ _
  | .fieldPointerReference e f, avoids => by
      refine Sim.bind (eval_off (e := e) off avoids) ?_
      rintro o _ ⟨rfl, spares⟩
      rw [M.deref_off off spares]
      refine Sim.bind (sim_refl _) ?_
      rintro c _ rfl
      exact sim_cell _ _
  | .dereference e, avoids => by
      refine Sim.bind (eval_off (e := e) off avoids) ?_
      rintro o _ ⟨rfl, spares⟩
      rw [M.deref_off off spares]
      exact sim_cell _ _
  | .binOp op l r, avoids => by
      rw [eval, eval]
      refine Sim.bind (M.binary_off off op
        (eval_off off fun x hx => avoids x (List.mem_append_left _ hx))
        (eval_off off fun x hx => avoids x (List.mem_append_right _ hx))) ?_
      rintro v _ rfl
      exact sim_pure ⟨rfl, trivial⟩
  | .isValid e, avoids => by
      refine Sim.bind (eval_off (e := e) off avoids) ?_
      rintro o _ ⟨rfl, spares⟩
      rw [M.read_off off spares]
      refine Sim.bind (sim_refl _) ?_
      rintro h _ rfl
      exact sim_cell _ _
  | .endorse l e, avoids => by
      refine Sim.bind (eval_off (e := e) off avoids) ?_
      rintro o _ ⟨rfl, spares⟩
      rw [M.read_off off spares]
      exact sim_cell _ _
  | .ensure l e, avoids => by
      refine Sim.bind (eval_off (e := e) off avoids) ?_
      rintro o _ ⟨rfl, spares⟩
      rw [M.read_off off spares]
      exact sim_cell _ _
  | .operation name h exprs vars, avoids => by
      simp only [Expr.mentioned, List.mem_append] at avoids
      rw [eval, eval]
      refine Sim.bind (eval_off off fun x hx => avoids x (Or.inl (Or.inl hx))) ?_
      rintro o _ ⟨rfl, spares⟩
      refine Sim.bind (evalAll_off off fun x hx => avoids x (Or.inl (Or.inr hx))) ?_
      rintro os _ ⟨rfl, all⟩
      have args : ∀ o ∈ vars.map .var ++ os, o.Spares D := by
        intro o ho
        obtain ho | ho := List.mem_append.mp ho
        · obtain ⟨x, hx, rfl⟩ := List.mem_map.mp ho
          exact avoids x (Or.inr hx)
        · exact all o ho
      rw [M.read_off off spares, M.readAll_off off args]
      refine Sim.bind (sim_refl _) ?_
      rintro hndl _ rfl
      refine Sim.bind (sim_refl _) ?_
      rintro vs _ rfl
      exact sim_cell _ _

theorem evalAll_off (off : Off D cells cells') : ∀ {es : List Expr}, (∀ x ∈ Expr.mentionedAll es, ¬ D x) →
    Sim Eq (fun os os' => os = os' ∧ ∀ o ∈ os, o.Spares D) (M.evalAll cells es)
      (M.evalAll cells' es)
  | [], _ => sim_pure ⟨rfl, by simp⟩
  | e :: es, avoids => by
      simp only [Expr.mentionedAll, List.mem_append] at avoids
      rw [evalAll, evalAll]
      refine Sim.bind (eval_off off fun x hx => avoids x (Or.inl hx)) ?_
      rintro o _ ⟨rfl, spares⟩
      refine Sim.bind (evalAll_off off fun x hx => avoids x (Or.inr hx)) ?_
      rintro os _ ⟨rfl, all⟩
      exact sim_pure ⟨rfl, List.forall_mem_cons.mpr ⟨spares, all⟩⟩

end

include off

theorem evalTo_off {e : Expr} (avoids : ∀ x ∈ e.mentioned, ¬ D x) :
    Sim Eq Eq (M.evalTo cells e) (M.evalTo cells' e) := by
  refine Sim.bind (M.eval_off off avoids) ?_
  rintro o _ ⟨rfl, spares⟩
  rw [M.read_off off spares]
  exact sim_refl _

theorem evalDeref_off {e : Expr} (avoids : ∀ x ∈ e.mentioned, ¬ D x) :
    Sim Eq Eq (M.eval cells e >>= M.deref cells) (M.eval cells' e >>= M.deref cells') := by
  refine Sim.bind (M.eval_off off avoids) ?_
  rintro o _ ⟨rfl, spares⟩
  rw [M.deref_off off spares]
  exact sim_refl _

theorem evalRoot_off {e : Expr} (avoids : ∀ x ∈ e.mentioned, ¬ D x) :
    Sim Eq (fun p p' : Operand V × List Name => p = p' ∧ p.1.Spares D)
      (M.eval cells e >>= fun o => pure (o, [])) (M.eval cells' e >>= fun o => pure (o, [])) := by
  refine Sim.bind (M.eval_off off avoids) ?_
  rintro o _ ⟨rfl, spares⟩
  exact sim_pure ⟨rfl, spares⟩

theorem place_off : ∀ {e : Expr}, (∀ x ∈ e.mentioned, ¬ D x) →
    Sim Eq (fun p p' => p = p' ∧ p.1.Spares D) (M.place cells e) (M.place cells' e)
  | .fieldReference e f, avoids => by
      refine Sim.bind (place_off (e := e) avoids) ?_
      rintro p _ ⟨rfl, spares⟩
      exact sim_pure ⟨rfl, spares⟩
  | .fieldPointerReference e f, avoids => by
      refine Sim.bind (M.eval_off off (e := e) avoids) ?_
      rintro o _ ⟨rfl, spares⟩
      rw [M.deref_off off spares]
      refine Sim.bind (sim_refl _) ?_
      rintro c _ rfl
      exact sim_pure ⟨rfl, trivial⟩
  | .varReference _, avoids | .dereference _, avoids | .constant _, avoids | .binOp _ _ _, avoids
  | .isValid _, avoids | .endorse _ _, avoids | .ensure _ _, avoids
  | .operation _ _ _ _, avoids => M.evalRoot_off off avoids

variable {d d' : Cells V} (fixed : Fixed D d d' cells cells')

omit off

include fixed

omit [Inhabited V] in
theorem setOperand_fixed {o : Operand V} (spares : o.Spares D) (v : V) :
    Sim Eq (Fixed D d d') (M.setOperand cells o v) (M.setOperand cells' o v) := by
  cases o with
  | var x =>
      simp only [setOperand, fixed.1 x spares]
      cases cells' x with
      | value w => exact sim_pure (fixed.update spares _)
      | remote h =>
          refine Sim.bind (sim_refl _) ?_
          rintro _ _ rfl
          exact sim_pure fixed
  | cell c =>
      cases c with
      | value w => exact sim_pure fixed
      | remote h =>
          refine Sim.bind (sim_refl _) ?_
          rintro _ _ rfl
          exact sim_pure fixed

omit [Inhabited V] in
theorem assign_fixed {p : Operand V × List Name} {o : Operand V} (place : p.1.Spares D)
    (spares : o.Spares D) : Sim Eq (Fixed D d d') (M.assign cells p o) (M.assign cells' p o) := by
  obtain ⟨root, path⟩ := p
  cases path with
  | nil =>
      rw [assign, assign, M.read_off fixed.1 spares]
      refine Sim.bind (sim_refl _) ?_
      rintro v _ rfl
      exact M.setOperand_fixed fixed place v
  | cons f fs =>
      rw [assign, assign, M.read_off fixed.1 place, M.read_off fixed.1 spares]
      refine Sim.bind (sim_refl _) ?_
      rintro struct _ rfl
      refine Sim.bind (sim_refl _) ?_
      rintro v _ rfl
      exact M.setOperand_fixed fixed place _

end Expressions

section Statements

variable {d d' : Cells V}

omit [Inhabited V] [DecidableEq K] in
theorem sim_turns {R : Cells V × (K → V) × Sh → Cells V × (K → V) × Sh → Prop}
    {condition : Run V K F Sh Bool} {body : Run V K F Sh Unit} (n : ℕ)
    (hc : Sim R Eq condition condition) (hb : Sim R Eq body body) :
    Sim R Eq (turns condition body n) (turns condition body n) := by
  induction n with
  | zero =>
      refine Sim.bind hc ?_
      rintro go _ rfl
      split
      · exact sim_throw _
      · exact sim_pure rfl
  | succ n ih =>
      refine Sim.bind hc ?_
      rintro go _ rfl
      split
      · exact Sim.bind hb fun _ _ _ => ih
      · exact sim_pure rfl

/-- A program runs alike, whatever other variables hold, and these hold it in the end. -/
theorem run_fixed {n : ℕ} {st : Stmt} (avoids : ∀ x ∈ st.mentioned, ¬ D x) :
    Sim (First (Fixed D d d')) Eq (M.run n st) (M.run n st) := by
  induction st with
  | letIn x e body ih =>
      simp only [Stmt.mentioned, List.mem_cons, List.mem_append] at avoids
      refine Sim.bind (sim_reading fun c c' fixed =>
        M.evalTo_off fixed.1 fun y hy => avoids y (Or.inr (Or.inl hy))) ?_
      rintro v _ rfl
      refine Sim.bind (sim_setFirst fun c c' fixed => fixed.update (avoids x (Or.inl rfl)) _) fun _ _ _ => ?_
      exact ih fun y hy => avoids y (Or.inr (Or.inr hy))
  | letRemote x e body ih =>
      simp only [Stmt.mentioned, List.mem_cons, List.mem_append] at avoids
      refine Sim.bind (sim_reading fun c c' fixed =>
        M.evalDeref_off fixed.1 fun y hy => avoids y (Or.inr (Or.inl hy))) ?_
      rintro c _ rfl
      refine Sim.bind (sim_setFirst fun c c' fixed => fixed.update (avoids x (Or.inl rfl)) _) fun _ _ _ => ?_
      exact ih fun y hy => avoids y (Or.inr (Or.inr hy))
  | assignment var e =>
      simp only [Stmt.mentioned, List.mem_append] at avoids
      refine Sim.bind (Q := Fixed D d d') (sim_reading fun c c' fixed => ?_) fun c c' fixed =>
        sim_setFirst fun _ _ _ => fixed
      refine Sim.bind (M.eval_off fixed.1 fun y hy => avoids y (Or.inr hy)) ?_
      rintro o _ ⟨rfl, spares⟩
      refine Sim.bind (M.place_off fixed.1 fun y hy => avoids y (Or.inl hy)) ?_
      rintro p _ ⟨rfl, place⟩
      exact M.assign_fixed fixed place spares
  | operation name h exprs vars =>
      refine Sim.bind (sim_reading fun c c' fixed =>
        M.eval_off fixed.1 (e := .operation name h exprs vars) avoids) fun _ _ _ => sim_pure rfl
  | ret e =>
      refine Sim.bind (sim_reading fun c c' fixed => M.evalTo_off fixed.1 avoids) ?_
      rintro v _ rfl
      exact sim_throw _
  | ifThen c thn els ihThen ihElse =>
      simp only [Stmt.mentioned, List.mem_append] at avoids
      refine Sim.bind (sim_reading fun _ _ fixed =>
        M.evalTo_off fixed.1 fun y hy => avoids y (Or.inl (Or.inl hy))) ?_
      rintro v _ rfl
      split
      · exact ihThen fun y hy => avoids y (Or.inl (Or.inr hy))
      · exact ihElse fun y hy => avoids y (Or.inr hy)
  | whileLoop c body ih =>
      simp only [Stmt.mentioned, List.mem_append] at avoids
      refine sim_turns n (Sim.bind (sim_reading fun _ _ fixed =>
        M.evalTo_off fixed.1 fun y hy => avoids y (Or.inl hy)) ?_) (ih fun y hy => avoids y (Or.inr hy))
      rintro v _ rfl
      exact sim_pure rfl
  | nil => exact sim_pure rfl
  | cons first rest ihFirst ihRest =>
      simp only [Stmt.mentioned, List.mem_append] at avoids
      exact Sim.bind (ihFirst fun y hy => avoids y (Or.inl hy)) fun _ _ _ =>
        ihRest fun y hy => avoids y (Or.inr hy)

theorem run_off {n : ℕ} {st : Stmt} (avoids : ∀ x ∈ st.mentioned, ¬ D x) :
    Sim (First (Off D)) Eq (M.run n st) (M.run n st) := by
  rintro ⟨c, s⟩ ⟨c', s'⟩ ⟨off, rfl⟩
  have fixed : Fixed D c c' c c' := ⟨off, fun x _ => ⟨rfl, rfl⟩⟩
  obtain ⟨results, states, same⟩ := M.run_fixed avoids (c, s) (c', s) ⟨fixed, rfl⟩
  exact ⟨results, states.1, same⟩

/-- A program leaves what other variables hold. -/
theorem run_keeps {n : ℕ} {st : Stmt} {x : Name} (hx : x ∉ st.mentioned)
    (s : Cells V × (K → V) × Sh) : ((M.run n st).run s).2.1 x = s.1 x := by
  have avoids : ∀ y ∈ st.mentioned, ¬ y = x := by
    rintro y hy rfl
    exact hx hy
  have fixed : Fixed (· = x) s.1 s.1 s.1 s.1 := ⟨.refl _, fun y _ => ⟨rfl, rfl⟩⟩
  exact ((M.run_fixed avoids s s ⟨fixed, rfl⟩).2.1.2 x rfl).1

end Statements

end Machine

end MixT.Flatten
