import MixT.Split.Collect
import MixT.Phase.Agree

/-! # Phases of the splitter as they run

The phases that the splitter makes run over the same memory as any other phase. A phase
may be trimmed of steps over variables that it does not read, and of the ifs that this
leaves empty. -/

namespace MixT.Split

open Library Eff

section Running

variable {L : Type}

/-- The expression of a let as it runs. Endorsements are gone before the splitter runs. -/
def toExpr : Form Unit L → Phase.Expr
  | .varReference x => .varReference x
  | .fieldReference struct f => .fieldReference (.varReference struct.var) f
  | .constant i => .constant i
  | .binOp op l r => .binOp op (.varReference l.var) (.varReference r.var)
  | .generateTombstone => .generateTombstone
  | .isValid h => .isValid (.varReference h.var)
  | .endorse _ x => .varReference x.var
  | .operation name h args =>
      .operation name (.varReference h.var) (args.map fun arg => .varReference arg.var)

/-- A phase of the splitter as it runs. -/
def Stmt.toPhase : Stmt L → Phase.Stmt L
  | .letIn _ b body => .letIn b.var (toExpr b.expr.form) (toPhase body)
  | .letRemote _ b body => .letRemote b.var (.varReference b.expr.var) (toPhase body)
  | .operation _ name h args =>
      .operation name (.varReference h.var) (args.map fun arg => .varReference arg.var)
  | .assignment _ (.var x) e => .assignVar x.var (.varReference e.var)
  | .assignment _ (.field _ _ struct f) e => .assignField struct.var f (.varReference e.var)
  | .ret _ e => .ret (.varReference e.var)
  | .accompanyWrite _ target => .accompanyWrite target.baseVar
  | .writeTombstone _ e => .writeTombstone e.var
  | .incrementOccurance _ x => .incrementOccurance x
  | .incrementRemoteOccurance _ x => .incrementRemoteOccurance x
  | .refreshRemoteOccurance _ h => .refreshRemoteOccurance h.yield h.var
  | .ifThen _ c t e => .ifThen (.varReference c.var) (toPhase t) (toPhase e)
  | .whileLoop _ name c body => .whileLoop name (.varReference c.var) (toPhase body)
  | .forEach _ name body => .forEach name (toPhase body)
  | .nil => .nil
  | .cons first rest => .cons (toPhase first) (toPhase rest)

end Running

namespace Stmt

variable {L : Type*}

/-- The variables that a phase names. -/
def uses : Stmt L → List VarName
  | .letIn _ b body => formVars b.expr.form ++ uses body
  | .letRemote _ b body => b.expr.var :: uses body
  | .operation _ _ h args => h.var :: args.map VarRef.var
  | .assignment _ target e => [target.baseVar, e.var]
  | .ret _ e => [e.var]
  | .accompanyWrite _ target => [target.baseVar]
  | .writeTombstone _ e => [e.var]
  | .incrementOccurance _ _ => []
  | .incrementRemoteOccurance _ _ => []
  | .refreshRemoteOccurance _ h => [h.var]
  | .ifThen _ c t e => c.var :: (uses t ++ uses e)
  | .whileLoop _ _ c body => c.var :: uses body
  | .forEach _ _ body => uses body
  | .nil => []
  | .cons first rest => uses first ++ uses rest

/-- The variables that a phase reads without naming them: the counts of the loops that it
follows and the tombstone that accompanies a write. -/
def implied : Stmt L → List VarName
  | .letIn _ _ body => implied body
  | .letRemote _ _ body => implied body
  | .accompanyWrite _ _ => [Builtin.tombstoneName]
  | .ifThen _ _ t e => implied t ++ implied e
  | .whileLoop _ _ _ body => implied body
  | .forEach _ name body => name :: implied body
  | .cons first rest => implied first ++ implied rest
  | _ => []

/-- The variables whose cursors a phase steps forward. -/
def steps : Stmt L → List VarName
  | .letIn _ _ body => steps body
  | .letRemote _ _ body => steps body
  | .incrementOccurance _ x => [x]
  | .incrementRemoteOccurance _ x => [x]
  | .ifThen _ _ t e => steps t ++ steps e
  | .whileLoop _ _ _ body => steps body
  | .forEach _ _ body => steps body
  | .cons first rest => steps first ++ steps rest
  | _ => []

/-- The variables that a phase reads. -/
def Reads (s : Stmt L) (x : VarName) : Prop := x ∈ s.uses ∨ x ∈ s.implied

/-- A statement that has no others in it. -/
def simple : Stmt L → Bool
  | .letIn _ _ _ => false
  | .letRemote _ _ _ => false
  | .ifThen _ _ _ _ => false
  | .whileLoop _ _ _ _ => false
  | .forEach _ _ _ => false
  | .cons _ _ => false
  | _ => true

/-- The second phase is the first without steps over variables of `D`, and without ifs that
do not construct a list and whose branches are left empty. -/
inductive Trims (D : VarName → Prop) : Stmt L → Stmt L → Prop
  | same {s : Stmt L} : s.simple = true → Trims D s s
  | letIn (o : Origin) (b : Binding L L (Expression Unit L)) {body body' : Stmt L} :
      Trims D body body' → Trims D (.letIn o b body) (.letIn o b body')
  | letRemote (o : Origin) (b : Binding L L (VarRef Unit L)) {body body' : Stmt L} :
      Trims D body body' → Trims D (.letRemote o b body) (.letRemote o b body')
  | ifThen (o : Origin) (c : VarRef Unit L) {t t' e e' : Stmt L} :
      Trims D t t' → Trims D e e' → Trims D (.ifThen o c t e) (.ifThen o c t' e')
  | whileLoop (o : Origin) (name : VarName) (c : VarRef Unit L) {body body' : Stmt L} :
      Trims D body body' → Trims D (.whileLoop o name c body) (.whileLoop o name c body')
  | forEach (o : Origin) (name : VarName) {body body' : Stmt L} :
      Trims D body body' → Trims D (.forEach o name body) (.forEach o name body')
  | cons {first first' rest rest' : Stmt L} :
      Trims D first first' → Trims D rest rest' → Trims D (.cons first rest) (.cons first' rest')
  | collapse {s s' : Stmt L} : Trims D s s' → Trims D s s'.collapse
  | increment (o : Origin) {x : VarName} : D x → Trims D (.incrementOccurance o x) .nil
  | incrementRemote (o : Origin) {x : VarName} :
      D x → Trims D (.incrementRemoteOccurance o x) .nil
  | emptyIf (o : Origin) {c : VarRef Unit L} {t t' e e' : Stmt L} :
      c.var ≠ Builtin.listName → Trims D t t' → Trims D e e' → t'.isEmptySequence = true →
      e'.isEmptySequence = true → Trims D (.ifThen o c t e) .nil

@[simp] theorem uses_append (s t : Stmt L) : (s.append t).uses = s.uses ++ t.uses := by
  induction s with
  | cons first rest _ ih => simp [append, uses, ih]
  | _ => simp [append, uses]

@[simp] theorem uses_collapse (s : Stmt L) : s.collapse.uses = s.uses := by
  induction s with
  | cons first rest ihf ihr => simp [collapse, uses, ihf, ihr]
  | _ => rfl

@[simp] theorem implied_append (s t : Stmt L) : (s.append t).implied = s.implied ++ t.implied := by
  induction s with
  | cons first rest _ ih => simp [append, implied, ih]
  | _ => simp [append, implied]

@[simp] theorem implied_collapse (s : Stmt L) : s.collapse.implied = s.implied := by
  induction s with
  | cons first rest ihf ihr => simp [collapse, implied, ihf, ihr]
  | _ => rfl

@[simp] theorem steps_append (s t : Stmt L) : (s.append t).steps = s.steps ++ t.steps := by
  induction s with
  | cons first rest _ ih => simp [append, steps, ih]
  | _ => simp [append, steps]

@[simp] theorem steps_collapse (s : Stmt L) : s.collapse.steps = s.steps := by
  induction s with
  | cons first rest ihf ihr => simp [collapse, steps, ihf, ihr]
  | _ => rfl

theorem not_reads_of_empty {s : Stmt L} (h : s.isEmptySequence = true) (x : VarName) :
    ¬ s.Reads x := by
  induction s with
  | nil => simp [Reads, uses, implied]
  | cons first rest ihf ihr =>
      simp only [isEmptySequence, countSequence, Nat.add_eq_zero_iff, decide_eq_true_eq] at h ihf ihr
      have hf := ihf h.1
      have hr := ihr h.2
      simp only [Reads, not_or] at hf hr
      simp [Reads, uses, implied, hf, hr]
  | _ => simp [isEmptySequence, countSequence] at h

theorem reads_collapse (s : Stmt L) (x : VarName) : s.collapse.Reads x ↔ s.Reads x := by
  simp [Reads]

/-! A statement reads what its parts read. -/

section Parts

variable {s t : Stmt L} {c : VarRef Unit L} {o : Origin} {name x : VarName}

theorem Reads.letBody {b : Binding L L (Expression Unit L)} (h : s.Reads x) :
    (letIn o b s).Reads x :=
  h.imp (List.mem_append_right _) id

theorem Reads.letRemoteBody {b : Binding L L (VarRef Unit L)} (h : s.Reads x) :
    (letRemote o b s).Reads x :=
  h.imp (List.mem_cons_of_mem _) id

theorem Reads.thenBranch (h : s.Reads x) : (ifThen o c s t).Reads x :=
  h.imp (fun h => List.mem_cons_of_mem _ (List.mem_append_left _ h)) (List.mem_append_left _)

theorem Reads.elseBranch (h : t.Reads x) : (ifThen o c s t).Reads x :=
  h.imp (fun h => List.mem_cons_of_mem _ (List.mem_append_right _ h)) (List.mem_append_right _)

theorem Reads.whileBody (h : s.Reads x) : (whileLoop o name c s).Reads x :=
  h.imp (List.mem_cons_of_mem _) id

theorem Reads.forEachBody (h : s.Reads x) : (forEach o name s).Reads x :=
  h.imp id (List.mem_cons_of_mem _)

theorem Reads.first (h : s.Reads x) : (cons s t).Reads x :=
  h.imp (List.mem_append_left _) (List.mem_append_left _)

theorem Reads.rest (h : t.Reads x) : (cons s t).Reads x :=
  h.imp (List.mem_append_right _) (List.mem_append_right _)

end Parts

end Stmt

section Exec

variable {L V F Sh : Type} [Inhabited V] {host : Phase.Host V F}
  {backend : Phase.Backend V F Sh} {rightFirst : List Phase.Expr → Bool} {D : VarName → Prop}

open Phase (AgreeOn Agree Mem)

section Operands

variable {m m' : Mem L V}

theorem evalArgs_agree (h : Agree D m m') {args : List (VarRef Unit L)}
    (reads : ∀ arg ∈ args, ¬ D arg.var) :
    Phase.evalArgs host backend rightFirst m (args.map fun arg => .varReference arg.var) =
        Phase.evalArgs host backend rightFirst m' (args.map fun arg => .varReference arg.var) ∧
      Phase.evalArgsRight host backend rightFirst m (args.map fun arg => .varReference arg.var) =
        Phase.evalArgsRight host backend rightFirst m'
          (args.map fun arg => .varReference arg.var) := by
  induction args with
  | nil => simp [Phase.evalArgs, Phase.evalArgsRight]
  | cons arg args ih =>
      obtain ⟨left, right⟩ := ih fun a ha => reads a (List.mem_cons_of_mem _ ha)
      have here : Phase.getVar host backend m arg.var = Phase.getVar host backend m' arg.var :=
        h.getVar (reads arg (List.mem_cons_self ..))
      simp only [List.map_cons, Phase.evalArgs, Phase.evalArgsRight, Phase.eval, here, left, right,
        and_self]

theorem eval_var_agree (h : Agree D m m') {x : VarName} (hx : ¬ D x) :
    Phase.eval host backend rightFirst m (.varReference x) =
      Phase.eval host backend rightFirst m' (.varReference x) := by
  simp only [Phase.eval, h.getVar hx]

theorem eval_operation_agree (h : Agree D m m') {name : OperName} {x : VarName}
    {args : List (VarRef Unit L)} (hx : ¬ D x) (reads : ∀ arg ∈ args, ¬ D arg.var) :
    Phase.eval host backend rightFirst m
        (.operation name (.varReference x) (args.map fun arg => .varReference arg.var)) =
      Phase.eval host backend rightFirst m'
        (.operation name (.varReference x) (args.map fun arg => .varReference arg.var)) := by
  have operands := @evalArgs_agree L V F Sh _ host backend rightFirst D m m' h args reads
  simp only [Phase.eval, h.getVar hx, operands.1, operands.2]

/-- Expressions that read no variable of `D` give the same. -/
theorem eval_toExpr_agree (h : Agree D m m') {e : Form Unit L} (reads : ∀ x ∈ formVars e, ¬ D x) :
    Phase.eval host backend rightFirst m (toExpr e) =
      Phase.eval host backend rightFirst m' (toExpr e) := by
  cases e with
  | operation name hd args =>
      simp only [formVars, List.mem_cons, List.mem_map, forall_eq_or_imp, forall_exists_index,
        and_imp, forall_apply_eq_imp_iff₂] at reads
      exact eval_operation_agree h reads.1 reads.2
  | binOp op l r =>
      have hl : Phase.getVar host backend m l.var = Phase.getVar host backend m' l.var :=
        h.getVar (reads l.var (by simp [formVars]))
      have hr : Phase.getVar host backend m r.var = Phase.getVar host backend m' r.var :=
        h.getVar (reads r.var (by simp [formVars]))
      cases op <;> simp only [toExpr, Phase.eval, hl, hr]
  | _ => simp_all [formVars, toExpr, Phase.eval, h.getVar]

end Operands

variable [DecidableEq L]

open Stmt (Trims)

theorem exec_append (n : Nat) (s t : Stmt L) :
    Phase.exec host backend rightFirst n (s.append t).toPhase =
      (do Phase.exec host backend rightFirst n s.toPhase
          Phase.exec host backend rightFirst n t.toPhase) := by
  induction s with
  | nil => simp [Stmt.append, Stmt.toPhase, Phase.exec]
  | cons first rest _ ih => simp [Stmt.append, Stmt.toPhase, Phase.exec, ih]
  | _ => rfl

theorem exec_collapse (n : Nat) (s : Stmt L) :
    Phase.exec host backend rightFirst n s.collapse.toPhase =
      Phase.exec host backend rightFirst n s.toPhase := by
  induction s with
  | cons first rest ihf ihr =>
      simp only [Stmt.collapse, exec_append, ihf, ihr, Stmt.toPhase, Phase.exec]
  | _ => rfl

theorem exec_of_empty (n : Nat) {s : Stmt L} (h : s.isEmptySequence = true) :
    Phase.exec host backend rightFirst n s.toPhase = pure () := by
  induction s with
  | nil => rfl
  | cons first rest ihf ihr =>
      simp only [Stmt.isEmptySequence, Stmt.countSequence, Nat.add_eq_zero_iff,
        decide_eq_true_eq] at h ihf ihr
      simp [Stmt.toPhase, Phase.exec, ihf h.1, ihr h.2]
  | _ => simp [Stmt.isEmptySequence, Stmt.countSequence] at h

/-- A statement without others in it, which reads no variable of `D`, runs alike over
memories that agree. -/
theorem exec_simple_sim (n : Nat) {s : Stmt L} (simple : s.simple = true)
    (reads : ∀ x, s.Reads x → ¬ D x) :
    Sim (AgreeOn D) Eq (Phase.exec host backend rightFirst n s.toPhase)
      (Phase.exec host backend rightFirst n s.toPhase) := by
  have uses : ∀ x ∈ s.uses, ¬ D x := fun x hx => reads x (Or.inl hx)
  cases s with
  | operation o name h args =>
      simp only [Stmt.uses, List.mem_cons, List.mem_map, forall_eq_or_imp, forall_exists_index,
        and_imp, forall_apply_eq_imp_iff₂] at uses
      apply (Phase.sim_ofAct fun m m' agree => eval_operation_agree agree uses.1 uses.2).bind
      rintro _ _ -
      exact sim_pure rfl
  | assignment o target e =>
      have value : ∀ m m' : Mem L V, Agree D m m' →
          Phase.eval host backend rightFirst m (.varReference e.var) =
            Phase.eval host backend rightFirst m' (.varReference e.var) :=
        fun m m' agree => eval_var_agree agree (uses _ (by simp [Stmt.uses]))
      cases target with
      | var x =>
          apply (Phase.sim_ofAct value).bind
          rintro v _ rfl
          exact Phase.sim_change fun m m' agree => agree.push x.var v
      | field label yield struct f =>
          apply (Phase.sim_ofAct fun m m' agree =>
            agree.getVar (uses struct.var (by simp [Stmt.uses, Target.baseVar, Target.base]))).bind
          rintro strct _ rfl
          apply (Phase.sim_ofAct value).bind
          rintro v _ rfl
          exact Phase.sim_change fun m m' agree => agree.push struct.var _
  | ret o e =>
      apply (Phase.sim_ofAct fun m m' agree =>
        eval_var_agree agree (uses e.var (by simp [Stmt.uses]))).bind
      rintro v _ rfl
      exact sim_throw _
  | accompanyWrite o target =>
      apply Phase.sim_ofAct
      intro m m' agree
      rw [agree.getRemote (uses _ (by simp [Stmt.uses])),
        agree.get (reads _ (Or.inr (by simp [Stmt.implied])))]
  | writeTombstone o e =>
      apply Phase.sim_ofAct
      intro m m' agree
      rw [agree.get (uses _ (by simp [Stmt.uses]))]
  | incrementOccurance o x =>
      exact Phase.sim_change fun m m' agree => sim_pure (agree.increment x)
  | incrementRemoteOccurance o x =>
      exact Phase.sim_change fun m m' agree => sim_pure (agree.incrementRemote x)
  | refreshRemoteOccurance o h =>
      apply (Phase.sim_ofAct fun m m' agree =>
        agree.getVar (uses h.var (by simp [Stmt.uses]))).bind
      rintro v _ rfl
      exact Phase.sim_change fun m m' agree => agree.refresh h.yield v
  | nil => exact sim_pure rfl
  | _ => simp [Stmt.simple] at simple

/-- Testing a variable, other than to construct a list, has no effect. -/
theorem exec_emptyIf_sim (n : Nat) {o : Origin} {c : VarRef Unit L} {t e : Stmt L}
    (noList : c.var ≠ Builtin.listName)
    (ht : Sim (AgreeOn D) Eq (Phase.exec host backend rightFirst n t.toPhase) (pure ()))
    (he : Sim (AgreeOn D) Eq (Phase.exec host backend rightFirst n e.toPhase) (pure ())) :
    Sim (AgreeOn D) Eq (Phase.exec host backend rightFirst n (Stmt.ifThen o c t e).toPhase)
      (pure ()) := by
  have pureTest : ∀ m : Mem L V, ∃ v, Phase.getVar host backend m c.var = pure v := by
    intro m
    simp only [Phase.getVar, if_neg noList]
    split
    · exact ⟨_, rfl⟩
    · split
      · exact ⟨_, rfl⟩
      · exact ⟨_, rfl⟩
  rintro ⟨m, sh⟩ ⟨m', sh'⟩ hR
  obtain ⟨v, hv⟩ := pureTest m
  have test : (Phase.exec host backend rightFirst n (Stmt.ifThen o c t e).toPhase).run (m, sh) =
      (if host.truth v then Phase.exec host backend rightFirst n t.toPhase
        else Phase.exec host backend rightFirst n e.toPhase).run (m, sh) := by
    simp only [Stmt.toPhase, Phase.exec, Phase.eval, run_bind, Phase.Exec.ofAct, ExceptT.run_mk, hv,
      run_pure]
  rw [test]
  split
  · exact ht _ _ hR
  · exact he _ _ hR

/-- A trimmed phase does what the whole phase does, if it reads no variable of `D`. -/
theorem Stmt.Trims.sim {s s' : Stmt L} (h : Trims D s s') (n : Nat)
    (reads : ∀ x, s'.Reads x → ¬ D x) :
    Sim (AgreeOn D) Eq (Phase.exec host backend rightFirst n s.toPhase)
      (Phase.exec host backend rightFirst n s'.toPhase) := by
  induction h with
  | same simple => exact exec_simple_sim n simple reads
  | letIn o b _ ih =>
      apply (Phase.sim_ofAct fun m m' agree => eval_toExpr_agree agree fun x hx =>
        reads x (Or.inl (List.mem_append_left _ hx))).bind
      rintro v _ rfl
      apply (Phase.sim_change fun m m' agree => agree.bind b.var v).bind
      rintro _ _ -
      exact ih fun x hx => reads x hx.letBody
  | letRemote o b _ ih =>
      apply (Phase.sim_ofAct fun m m' agree => eval_var_agree agree
        (reads b.expr.var (Or.inl (List.mem_cons_self ..)))).bind
      rintro v _ rfl
      apply (Phase.sim_change fun m m' agree => agree.bind b.var v).bind
      rintro _ _ -
      exact ih fun x hx => reads x hx.letRemoteBody
  | ifThen o c _ _ iht ihe =>
      apply (Phase.sim_ofAct fun m m' agree => eval_var_agree agree
        (reads c.var (Or.inl (List.mem_cons_self ..)))).bind
      rintro v _ rfl
      split
      · exact iht fun x hx => reads x hx.thenBranch
      · exact ihe fun x hx => reads x hx.elseBranch
  | whileLoop o name c _ ih =>
      have condition : Sim (AgreeOn D) Eq
          (do
            let v ← Phase.Exec.ofAct fun m : Mem L V =>
              Phase.eval host backend rightFirst m (.varReference c.var)
            pure (host.truth v))
          (do
            let v ← Phase.Exec.ofAct fun m : Mem L V =>
              Phase.eval host backend rightFirst m (.varReference c.var)
            pure (host.truth v)) := by
        apply (Phase.sim_ofAct fun m m' agree => eval_var_agree agree
          (reads c.var (Or.inl (List.mem_cons_self ..)))).bind
        rintro v _ rfl
        exact sim_pure rfl
      apply (Phase.sim_change fun m m' agree => agree.bind name (host.ofInt 0)).bind
      rintro _ _ -
      apply condition.bind
      rintro go _ rfl
      apply Phase.sim_turns
      · intro i
        exact Phase.sim_change fun m m' agree => agree.push name _
      · exact ih fun x hx => reads x hx.whileBody
      · exact condition
  | forEach o name _ ih =>
      apply (Phase.sim_ofAct fun m m' agree =>
        agree.getVar (reads name (Or.inr (List.mem_cons_self ..)))).bind
      rintro bound _ rfl
      apply Phase.sim_repeatTurns
      exact ih fun x hx => reads x hx.forEachBody
  | cons _ _ ihf ihr =>
      apply (ihf fun x hx => reads x hx.first).bind
      rintro _ _ -
      exact ihr fun x hx => reads x hx.rest
  | collapse _ ih =>
      rw [exec_collapse]
      exact ih fun x hx => reads x ((Stmt.reads_collapse _ x).mpr hx)
  | increment o hx =>
      rintro ⟨m, sh⟩ ⟨m', _⟩ ⟨agree, rfl⟩
      exact ⟨.ok rfl, agree.increment_left hx, rfl⟩
  | incrementRemote o hx =>
      rintro ⟨m, sh⟩ ⟨m', _⟩ ⟨agree, rfl⟩
      exact ⟨.ok rfl, agree.incrementRemote_left hx, rfl⟩
  | emptyIf o noList _ _ emptyT emptyE iht ihe =>
      have noReads : ∀ {s : Stmt L}, s.isEmptySequence = true → ∀ x, s.Reads x → ¬ D x := by
        intro s empty x hx
        exact absurd hx (Stmt.not_reads_of_empty empty x)
      have ht := iht (noReads emptyT)
      have he := ihe (noReads emptyE)
      rw [exec_of_empty n emptyT] at ht
      rw [exec_of_empty n emptyE] at he
      exact exec_emptyIf_sim n noList ht he

end Exec

end MixT.Split
