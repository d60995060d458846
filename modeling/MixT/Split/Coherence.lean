import MixT.Phase.Objects
import MixT.Split.Frame
import MixT.Split.Refreshing

/-! # Aliases after an operation

In a program of one label, an operation on an object makes stale every remote variable that
refers to the object, until the object is refreshed. What is read at each statement of a run
is current if the refresh comes before the next read, and reaches every such variable. -/

namespace MixT.Split

open Library Eff

namespace Stmt

variable {L : Type*}

/-- The variables whose values a statement itself reads. The splitter's own refreshes are
no reads of the program. -/
def operands : Stmt L → List VarName
  | .letIn _ b _ => formVars b.expr.form
  | .letRemote _ b _ => [b.expr.var]
  | .operation _ _ h args => h.var :: args.map VarRef.var
  | .assignment _ (.var _) e => [e.var]
  | .assignment _ (.field _ _ struct _) e => [struct.var, e.var]
  | .ret _ e => [e.var]
  | .accompanyWrite _ _ => [Builtin.tombstoneName]
  | .writeTombstone _ e => [e.var]
  | .ifThen _ c _ _ => [c.var]
  | .whileLoop _ _ c _ => [c.var]
  | .forEach _ name _ => [name]
  | _ => []

theorem reads_of_operands {s : Stmt L} {x : VarName} (h : x ∈ s.operands) : s.Reads x := by
  cases s with
  | assignment o target e =>
      cases target with
      | var y => exact Or.inl (List.mem_cons_of_mem _ h)
      | field label yield struct f => exact Or.inl h
  | letIn o b body => exact Or.inl (List.mem_append_left _ h)
  | accompanyWrite o target => exact Or.inr h
  | _ => simp_all [operands, Reads, uses, implied]

end Stmt

section Along

variable {L V F Sh : Type} [Inhabited V] [DecidableEq L] (host : Phase.Host V F)
  (backend : Phase.Backend V F Sh) (rightFirst : List Phase.Expr → Bool)

/-- `test` where the condition of a loop is evaluated again, `inside` where its body starts. -/
def alongTurns (push : Nat → Phase.Exec L V F Sh Unit) (body : Phase.Exec L V F Sh Unit)
    (condition : Phase.Exec L V F Sh Bool) (test inside : Phase.Mem L V × Sh → Prop) :
    Nat → Nat → Bool → Phase.Mem L V × Sh → Prop
  | _, _, false, _ => True
  | 0, _, true, _ => True
  | n + 1, i, true, st =>
      wlp (push (i + 1)) (fun _ st => inside st ∧
        wlp body (fun _ st => test st ∧
          wlp condition (fun go st =>
            alongTurns push body condition test inside n (i + 1) go st) st) st) st

/-- `inside` where the body of a loop over earlier decisions starts. -/
def alongRepeats (body : Phase.Exec L V F Sh Unit) (inside : Phase.Mem L V × Sh → Prop) :
    Nat → Phase.Mem L V × Sh → Prop
  | 0, _ => True
  | n + 1, st => inside st ∧ wlp body (fun _ st => alongRepeats body inside n st) st

/-- `P` holds at each statement that a phase comes to, of the state that it finds. -/
def Along (P : Stmt L → Phase.Mem L V × Sh → Prop) (n : Nat) :
    Stmt L → Phase.Mem L V × Sh → Prop
  | .letIn o b body, st => P (.letIn o b body) st ∧
      wlp (Phase.Exec.ofAct fun m => Phase.eval host backend rightFirst m (toExpr b.expr.form))
        (fun v st => wlp (Phase.Exec.change fun m => m.bind host backend b.var v)
          (fun _ st => Along P n body st) st) st
  | .letRemote o b body, st => P (.letRemote o b body) st ∧
      wlp (Phase.Exec.ofAct fun m =>
          Phase.eval host backend rightFirst m (.varReference b.expr.var))
        (fun v st => wlp (Phase.Exec.change fun m => m.bind host backend b.var v)
          (fun _ st => Along P n body st) st) st
  | .ifThen o c t e, st => P (.ifThen o c t e) st ∧
      wlp (Phase.Exec.ofAct fun m => Phase.eval host backend rightFirst m (.varReference c.var))
        (fun v st => if host.truth v then Along P n t st else Along P n e st) st
  | .whileLoop o name c body, st =>
      let condition := do
        let v ← Phase.Exec.ofAct fun m =>
          Phase.eval host backend rightFirst m (.varReference c.var)
        pure (host.truth v)
      wlp (Phase.Exec.change fun m => m.bind host backend name (host.ofInt 0))
        (fun _ st => P (.whileLoop o name c body) st ∧
          wlp condition (fun go st =>
            alongTurns (fun i => Phase.Exec.change fun m => m.push host backend name (host.ofInt i))
              (Phase.exec host backend rightFirst n body.toPhase) condition
              (P (.whileLoop o name c body)) (Along P n body) n 0 go st) st) st
  | .forEach o name body, st => P (.forEach o name body) st ∧
      wlp (Phase.Exec.ofAct fun m => Phase.getVar host backend m name)
        (fun v st => alongRepeats (Phase.exec host backend rightFirst n body.toPhase)
          (Along P n body) (host.count v) st) st
  | .nil, _ => True
  | .cons first rest, st => Along P n first st ∧
      wlp (Phase.exec host backend rightFirst n first.toPhase) (fun _ st => Along P n rest st) st
  | s, st => P s st

variable {host backend rightFirst} {P : Stmt L → Phase.Mem L V × Sh → Prop} {n : Nat}

theorem along_append {s t : Stmt L} {st : Phase.Mem L V × Sh} :
    Along host backend rightFirst P n (s.append t) st ↔ Along host backend rightFirst P n s st ∧
      wlp (Phase.exec host backend rightFirst n s.toPhase)
        (fun _ st => Along host backend rightFirst P n t st) st := by
  induction s generalizing st with
  | nil => simp [Stmt.append, Along, Stmt.toPhase, Phase.exec]
  | cons first rest _ ih =>
      simp only [Stmt.append, Along, Stmt.toPhase, Phase.exec, wlp_bind, ih]
      constructor
      · rintro ⟨here, after⟩
        exact ⟨⟨here, after.mono fun _ _ h => h.1⟩, after.mono fun _ _ h => h.2⟩
      · rintro ⟨⟨here, after⟩, after'⟩
        exact ⟨here, after.and after'⟩
  | _ => rfl

theorem along_collapse {s : Stmt L} {st : Phase.Mem L V × Sh} :
    Along host backend rightFirst P n s.collapse st ↔ Along host backend rightFirst P n s st := by
  induction s generalizing st with
  | cons first rest ihf ihr => simp only [Stmt.collapse, along_append, Along, exec_collapse, ihf, ihr]
  | _ => rfl

end Along

section Coherent

variable {L V F Sh : Type} [Inhabited V] {host : Phase.Host V F}
  {backend : Phase.Backend V F Sh} {rightFirst : List Phase.Expr → Bool}
  {object : Phase.Objects V Sh}

open Phase (Mem Steady Unchanged Coherent)

section Evaluation

variable {m : Mem L V} {sh : Sh}

theorem getVar_steady (stores : backend.Stores host object) (m : Mem L V) (x : VarName) :
    Steady object (Phase.getVar host backend m x) := by
  unfold Phase.getVar
  split
  · exact Phase.steady_pure _
  split
  · exact Phase.steady_pure _
  split
  · exact stores.listStub
  · exact Phase.steady_pure _

theorem evalArgs_steady (stores : backend.Stores host object) (m : Mem L V)
    (args : List (VarRef Unit L)) :
    Steady object (Phase.evalArgs host backend rightFirst m
        (args.map fun arg => .varReference arg.var)) ∧
      Steady object (Phase.evalArgsRight host backend rightFirst m
        (args.map fun arg => .varReference arg.var)) := by
  induction args with
  | nil =>
      simp only [List.map_nil, Phase.evalArgs, Phase.evalArgsRight]
      exact ⟨Phase.steady_pure _, Phase.steady_pure _⟩
  | cons arg args ih =>
      have here := getVar_steady stores m arg.var
      simp only [List.map_cons, Phase.evalArgs, Phase.evalArgsRight, Phase.eval]
      exact ⟨here.bind fun _ => ih.1.bind fun _ => Phase.steady_pure _,
        ih.2.bind fun _ => here.bind fun _ => Phase.steady_pure _⟩

/-- The variable has a handle of the object. -/
def Denotes (host : Phase.Host V F) (backend : Phase.Backend V F Sh) (st : Mem L V × Sh)
    (x : VarName) (n : Nat) : Prop :=
  ∃ v sh, (Phase.getVar host backend st.1 x).run st.2 = (.ok v, sh) ∧ n = host.name v

/-- An operation changes the object of its handle only. -/
theorem eval_acts (stores : backend.Stores host object) {name : OperName} (acting : acts name = true)
    (x : VarName) (args : List (VarRef Unit L)) :
    wlp (Phase.eval host backend rightFirst m
        (.operation name (.varReference x) (args.map fun arg => .varReference arg.var)))
      (fun _ sh' => ∃ n, Denotes host backend (m, sh) x n ∧ Unchanged object (· = n) sh sh') sh := by
  simp only [acts, Bool.and_eq_true, decide_eq_true_eq] at acting
  obtain ⟨⟨notPush, notNulled⟩, notNew⟩ := acting
  simp only [Phase.eval, notPush, notNulled, notNew, if_false, wlp_bind]
  have handle := getVar_steady stores m x sh
  intro v sh₁ hrun
  have first := handle v sh₁ hrun
  have steady : Steady object (if rightFirst (args.map fun arg => .varReference arg.var)
      then Phase.evalArgsRight host backend rightFirst m (args.map fun arg => .varReference arg.var)
      else Phase.evalArgs host backend rightFirst m
        (args.map fun arg => .varReference arg.var)) := by
    split
    · exact (evalArgs_steady stores m args).2
    · exact (evalArgs_steady stores m args).1
  rw [wlp_bind]
  refine (steady sh₁).mono fun vs sh₂ second => ?_
  refine (stores.act name v vs sh₂).mono fun _ sh₃ third => ?_
  refine ⟨host.name v, ⟨v, sh₁, hrun, rfl⟩, ?_⟩
  have before : Unchanged object (· = host.name v) sh sh₂ :=
    (first.trans second).mono fun _ => False.elim
  exact before.trans third.1

/-- An expression that does not operate on an object changes none. -/
theorem eval_steady (stores : backend.Stores host object) (m : Mem L V) {e : Form Unit L}
    (none : formHandle e = none) : Steady object (Phase.eval host backend rightFirst m (toExpr e)) := by
  have read := getVar_steady stores m
  cases e with
  | varReference x => simpa [toExpr, Phase.eval] using read x
  | fieldReference struct f =>
      simp only [toExpr, Phase.eval]
      exact (read _).bind fun _ => Phase.steady_pure _
  | constant i =>
      simp only [toExpr, Phase.eval]
      exact Phase.steady_pure _
  | binOp op l r =>
      cases op with
      | and =>
          simp only [toExpr, Phase.eval]
          refine (read _).bind fun _ => ?_
          split
          · exact (read _).bind fun _ => Phase.steady_pure _
          · exact Phase.steady_pure _
      | or =>
          simp only [toExpr, Phase.eval]
          refine (read _).bind fun _ => ?_
          split
          · exact Phase.steady_pure _
          · exact (read _).bind fun _ => Phase.steady_pure _
      | less =>
          simp only [toExpr, Phase.eval]
          exact (read _).bind fun _ => (read _).bind fun _ => Phase.steady_ofExcept _
      | _ =>
          simp only [toExpr, Phase.eval]
          split
          · exact (read _).bind fun _ => (read _).bind fun _ => Phase.steady_ofExcept _
          · exact (read _).bind fun _ => (read _).bind fun _ => Phase.steady_ofExcept _
  | generateTombstone =>
      simp only [toExpr, Phase.eval]
      exact stores.generateTombstone
  | isValid h =>
      simp only [toExpr, Phase.eval]
      exact (read _).bind fun _ => stores.isValid _
  | endorse l x => simpa [toExpr, Phase.eval] using read x.var
  | operation name h args =>
      simp only [formHandle, ite_eq_right_iff, reduceCtorEq, imp_false, acts, Bool.and_eq_true,
        decide_eq_true_eq, not_and_or, not_not] at none
      simp only [toExpr, Phase.eval]
      split
      · refine (read _).bind fun lst => (stores.ensureList lst).bind fun _ => ?_
        exact (evalArgs_steady stores m args).1.bind fun vs => (stores.pushBack lst _).bind fun _ => Phase.steady_pure _
      split
      · exact (read _).bind fun _ => Phase.steady_pure _
      rename_i notPush notNulled
      obtain rfl : name = Builtin.new := by tauto
      refine (read _).bind fun hndl => Steady.bind ?_ fun vs => ?_
      · split
        · exact (evalArgs_steady stores m args).2
        · exact (evalArgs_steady stores m args).1
      · simpa using stores.createNew hndl _

end Evaluation

variable [DecidableEq L] {mapped : Ty L → Prop} {stale : VarName → Ty L → Nat → Prop}
  {st : Mem L V × Sh}

omit [DecidableEq L] in
/-- Evaluating a let or an operation leaves memories coherent if what its object's
variables are is counted as stale. -/
theorem eval_coherent (stores : backend.Stores host object) {e : Form Unit L}
    (coherent : Coherent host object mapped stale st.1 st.2)
    (covered : ∀ hd, formHandle e = some hd → ∀ n, Denotes host backend st hd.var n →
      ∀ y handleType, st.1.Refers host y handleType n → stale y handleType n) :
    wlp (Phase.eval host backend rightFirst st.1 (toExpr e))
      (fun _ sh => Coherent host object mapped stale st.1 sh) st.2 := by
  cases found : formHandle e with
  | none => exact (eval_steady stores st.1 found st.2).mono fun _ _ kept => coherent.kept kept
  | some hd =>
      cases e with
      | operation name h args =>
          simp only [formHandle, Option.ite_none_right_eq_some, Option.some.injEq] at found
          obtain ⟨acting, rfl⟩ := found
          refine (eval_acts stores acting h.var args).mono ?_
          rintro - sh ⟨n, denotes, kept⟩
          apply (coherent.operated kept).mono
          rintro y handleType n' - (old | ⟨rfl, refers⟩)
          · exact old
          · exact covered h (by simp [formHandle, acting]) n' denotes y handleType refers
      | _ => cases found

/-- What is between an operation and its refresh: the body of its let neither reads the
variable nor binds or assigns the handle, which is local. -/
def RefreshedBeforeRead (s : Stmt L) (hd : VarRef Unit L) (m : Mem L V) (y : VarName) : Prop :=
  match s with
  | .letIn _ _ body => ¬ body.Reads y ∧ hd.var ∉ s.writes ∧
      ∀ handleType handle currPos, m.holders hd.var ≠ .remote handleType handle currPos
  | _ => True

/-- Where an operation acts on the object that a remote variable refers to, it does so
through a handle from outside the program which has the variable's type, and the object is
refreshed before the variable is read. -/
def AliasesFollow (host : Phase.Host V F) (backend : Phase.Backend V F Sh)
    (prog : Statement L L) (s : Stmt L) (st : Mem L V × Sh) : Prop :=
  ∀ hd, s.handleOf = some hd → ∀ n, Denotes host backend st hd.var n →
    ∀ y handleType, st.1.Refers host y handleType n →
      handleType = hd.yield ∧ Inherited prog hd.var ∧ RefreshedBeforeRead s hd st.1 y

/-- Each remote variable that the statement reads gives the state of its object, if an
operation changed that last. -/
def ReadsCurrent (host : Phase.Host V F) (object : Phase.Objects V Sh) (s : Stmt L)
    (st : Mem L V × Sh) : Prop :=
  ∀ x ∈ s.operands, ∀ handleType n v, st.1.Refers host x handleType n →
    object st.2 n = some (.operated, v) → st.1.get host x = v

section Run

variable {prog : Statement L L} {n : Nat} {s : Stmt L}

omit [DecidableEq L] in
theorem readsCurrent (coherent : Coherent host object mapped stale st.1 st.2)
    (fresh : ∀ x, s.Reads x → ∀ handleType n, ¬ stale x handleType n) :
    ReadsCurrent host object s st := fun x hx handleType n _ refers operated =>
  coherent.reads refers (fresh x (Stmt.reads_of_operands hx) handleType n) operated

/-- What a stretch of a run keeps: coherent memories, and current reads on the way. -/
def Follows (host : Phase.Host V F) (backend : Phase.Backend V F Sh)
    (rightFirst : List Phase.Expr → Bool) (object : Phase.Objects V Sh) (mapped : Ty L → Prop)
    (prog : Statement L L) (n : Nat) (s : Stmt L) : Prop :=
  ∀ stale (st : Mem L V × Sh), Coherent host object mapped stale st.1 st.2 →
    (∀ x, s.Reads x → ∀ handleType n, ¬ stale x handleType n) →
    Along host backend rightFirst (AliasesFollow host backend prog) n s st →
    Along host backend rightFirst (ReadsCurrent host object) n s st ∧
      wlp (Phase.exec host backend rightFirst n s.toPhase)
        (fun _ st' => Coherent host object mapped stale st'.1 st'.2) st

omit [DecidableEq L] in
/-- Handles that are not refreshed act on objects that nothing refers to. -/
theorem unaliased (coherent : Coherent host object mapped stale st.1 st.2)
    (follow : AliasesFollow host backend prog s st)
    (dropped : ∀ hd, s.handleOf = some hd → ¬ (Inherited prog hd.var ∧ mapped hd.yield)) :
    ∀ hd, s.handleOf = some hd → ∀ n, Denotes host backend st hd.var n →
      ∀ y handleType, st.1.Refers host y handleType n → stale y handleType n := by
  intro hd found n denotes y handleType refers
  obtain ⟨rfl, inherited, -⟩ := follow hd found n denotes y handleType refers
  obtain ⟨handle, currPos, holder, -⟩ := refers
  exact absurd ⟨inherited, (coherent.handles y _ _ _ holder).1⟩ (dropped hd found)

omit [DecidableEq L] in
theorem read_coherent (stores : backend.Stores host object) (x : VarName)
    (coherent : Coherent host object mapped stale st.1 st.2) :
    wlp (Phase.Exec.ofAct fun m => Phase.eval host backend rightFirst m (.varReference x))
      (fun _ st' => Coherent host object mapped stale st'.1 st'.2) st := by
  rw [Phase.wlp_ofAct, Phase.eval]
  exact (getVar_steady stores st.1 x st.2).mono fun _ _ kept => coherent.kept kept

theorem bind_coherent (stores : backend.Stores host object) (x : VarName) (v : V)
    (coherent : Coherent host object mapped stale st.1 st.2) :
    wlp (Phase.Exec.change fun m => m.bind host backend x v)
      (fun _ st' => Coherent host object mapped stale st'.1 st'.2) st := by
  rw [Phase.wlp_change]
  exact coherent.bind stores x v

theorem push_coherent (stores : backend.Stores host object) (x : VarName) (v : V)
    (coherent : Coherent host object mapped stale st.1 st.2) :
    wlp (Phase.Exec.change fun m => m.push host backend x v)
      (fun _ st' => Coherent host object mapped stale st'.1 st'.2) st := by
  rw [Phase.wlp_change]
  exact coherent.push stores x v

/-- A refresh through a handle of the object. -/
theorem refresh_coherent (stores : backend.Stores host object) (o : Origin) (h : VarRef Unit L)
    (coherent : Coherent host object mapped stale st.1 st.2) :
    wlp (Phase.exec host backend rightFirst n (Stmt.refreshRemoteOccurance o h).toPhase)
      (fun _ st' => ∃ n', Denotes host backend st h.var n' ∧ Coherent host object mapped
        (fun y handleType n => stale y handleType n ∧ ¬ (handleType = h.yield ∧ n = n'))
        st'.1 st'.2) st := by
  simp only [Stmt.toPhase, Phase.exec, wlp_bind]
  rw [Phase.wlp_ofAct]
  intro v sh hrun
  rw [Phase.wlp_change]
  have read := coherent.kept (getVar_steady stores st.1 h.var st.2 v sh hrun)
  refine (read.refresh stores h.yield v).mono fun m' sh' after => ?_
  exact ⟨host.name v, ⟨v, sh, hrun, rfl⟩, after⟩

theorem follows_simple (stores : backend.Stores host object) (simple : s.simple = true)
    (none : s.steps = [])
    (dropped : ∀ hd, s.handleOf = some hd → ¬ (Inherited prog hd.var ∧ mapped hd.yield)) :
    Follows host backend rightFirst object mapped prog n s := by
  intro stale st coherent fresh follow
  have reads : ReadsCurrent host object s st := readsCurrent coherent fresh
  cases s with
  | operation o name h args =>
      refine ⟨reads, ?_⟩
      simp only [Stmt.toPhase, Phase.exec, wlp_bind]
      rw [Phase.wlp_ofAct]
      refine (eval_coherent stores (e := .operation name h args) coherent
        (unaliased coherent follow dropped)).mono fun _ sh after => ?_
      rw [wlp_pure]
      exact after
  | assignment o target e =>
      refine ⟨reads, ?_⟩
      cases target with
      | var x =>
          simp only [Stmt.toPhase, Phase.exec, wlp_bind]
          exact (read_coherent stores e.var coherent).mono fun v _ after =>
            push_coherent stores x.var v after
      | field label yield struct f =>
          simp only [Stmt.toPhase, Phase.exec, wlp_bind]
          rw [Phase.wlp_ofAct]
          refine (getVar_steady stores st.1 struct.var st.2).mono fun strct sh kept => ?_
          have coherent' : Coherent host object mapped stale (st.1, sh).1 (st.1, sh).2 :=
            coherent.kept kept
          rw [wlp_bind]
          exact (read_coherent stores e.var coherent').mono fun v _ after =>
            push_coherent stores struct.var _ after
  | ret o e =>
      refine ⟨reads, ?_⟩
      simp only [Stmt.toPhase, Phase.exec, wlp_bind]
      exact (read_coherent stores e.var coherent).mono fun v _ _ => wlp_throw
  | accompanyWrite o target =>
      refine ⟨reads, ?_⟩
      simp only [Stmt.toPhase, Phase.exec]
      rw [Phase.wlp_ofAct]
      exact (stores.accompanyWrite _ _ st.2).mono fun _ _ kept => coherent.kept kept
  | writeTombstone o e =>
      refine ⟨reads, ?_⟩
      simp only [Stmt.toPhase, Phase.exec]
      rw [Phase.wlp_ofAct]
      exact (stores.writeTombstone _ st.2).mono fun _ _ kept => coherent.kept kept
  | incrementOccurance o x => cases none
  | incrementRemoteOccurance o x => cases none
  | refreshRemoteOccurance o h =>
      refine ⟨reads, (refresh_coherent stores o h coherent).mono ?_⟩
      rintro - st' ⟨n', -, after⟩
      exact after.mono fun _ _ _ _ old => old.1
  | nil =>
      refine ⟨trivial, ?_⟩
      simp only [Stmt.toPhase, Phase.exec]
      rw [wlp_pure]
      exact coherent
  | _ => simp [Stmt.simple] at simple

theorem follows_cons {t : Stmt L} (first : Follows host backend rightFirst object mapped prog n s)
    (rest : Follows host backend rightFirst object mapped prog n t) :
    Follows host backend rightFirst object mapped prog n (.cons s t) := by
  intro stale st coherent fresh follow
  have freshFirst : ∀ x, s.Reads x → ∀ handleType n, ¬ stale x handleType n :=
    fun x hx => fresh x hx.first
  have freshRest : ∀ x, t.Reads x → ∀ handleType n, ¬ stale x handleType n :=
    fun x hx => fresh x hx.rest
  obtain ⟨reads, after⟩ := first stale st coherent freshFirst follow.1
  have inner : wlp (Phase.exec host backend rightFirst n s.toPhase) (fun _ st' =>
      Along host backend rightFirst (ReadsCurrent host object) n t st' ∧
        wlp (Phase.exec host backend rightFirst n t.toPhase)
          (fun _ st'' => Coherent host object mapped stale st''.1 st''.2) st') st :=
    (after.and follow.2).mono fun _ st' here => rest stale st' here.1 freshRest here.2
  refine ⟨⟨reads, inner.mono fun _ _ h => h.1⟩, ?_⟩
  simp only [Stmt.toPhase, Phase.exec, wlp_bind]
  exact inner.mono fun _ _ h => h.2

theorem follows_regroup {t : Stmt L} (same : s.collapse = t.collapse)
    (h : Follows host backend rightFirst object mapped prog n s) :
    Follows host backend rightFirst object mapped prog n t := by
  intro stale st coherent fresh follow
  rw [← along_collapse, ← same, along_collapse] at follow
  rw [← along_collapse, ← same, along_collapse, ← exec_collapse n t, ← same, exec_collapse]
  apply h stale st coherent _ follow
  intro x hx
  apply fresh x
  rwa [← Stmt.reads_collapse, ← same, Stmt.reads_collapse]

theorem follows_ifThen {t e : Stmt L} (stores : backend.Stores host object) (o : Origin)
    (c : VarRef Unit L) (thenFollows : Follows host backend rightFirst object mapped prog n t)
    (elseFollows : Follows host backend rightFirst object mapped prog n e) :
    Follows host backend rightFirst object mapped prog n (.ifThen o c t e) := by
  intro stale st coherent fresh follow
  have freshThen : ∀ x, t.Reads x → ∀ handleType n, ¬ stale x handleType n :=
    fun x hx => fresh x hx.thenBranch
  have freshElse : ∀ x, e.Reads x → ∀ handleType n, ¬ stale x handleType n :=
    fun x hx => fresh x hx.elseBranch
  have after := (read_coherent stores c.var coherent).and follow.2
  refine ⟨⟨readsCurrent coherent fresh, after.mono fun v st' here => ?_⟩, ?_⟩
  · split
    · rename_i taken
      rw [if_pos taken] at here
      exact (thenFollows stale st' here.1 freshThen here.2).1
    · rename_i untaken
      rw [if_neg untaken] at here
      exact (elseFollows stale st' here.1 freshElse here.2).1
  · simp only [Stmt.toPhase, Phase.exec, wlp_bind]
    refine after.mono fun v st' here => ?_
    split
    · rename_i taken
      rw [if_pos taken] at here
      exact (thenFollows stale st' here.1 freshThen here.2).2
    · rename_i untaken
      rw [if_neg untaken] at here
      exact (elseFollows stale st' here.1 freshElse here.2).2

theorem follows_letRemote {body : Stmt L} (stores : backend.Stores host object) (o : Origin)
    (b : Binding L L (VarRef Unit L))
    (bodyFollows : Follows host backend rightFirst object mapped prog n body) :
    Follows host backend rightFirst object mapped prog n (.letRemote o b body) := by
  intro stale st coherent fresh follow
  have freshBody : ∀ x, body.Reads x → ∀ handleType n, ¬ stale x handleType n :=
    fun x hx => fresh x hx.letRemoteBody
  have after := (read_coherent stores b.expr.var coherent).and follow.2
  have inner := after.mono fun v st₁ here =>
    ((bind_coherent stores b.var v here.1).and here.2).mono fun _ st₂ bound =>
      bodyFollows stale st₂ bound.1 freshBody bound.2
  refine ⟨⟨readsCurrent coherent fresh, inner.mono fun v _ h => h.mono fun _ _ h => h.1⟩, ?_⟩
  simp only [Stmt.toPhase, Phase.exec, wlp_bind]
  refine inner.mono fun v st₁ h => ?_
  rw [wlp_bind]
  exact h.mono fun _ _ h => h.2

omit [Inhabited V] [DecidableEq L] in
theorem follows_turns {I : Mem L V × Sh → Prop} {push : Nat → Phase.Exec L V F Sh Unit}
    {body : Phase.Exec L V F Sh Unit} {condition : Phase.Exec L V F Sh Bool}
    {test test' inside inside' : Mem L V × Sh → Prop}
    (hpush : ∀ i st, I st → wlp (push i) (fun _ st' => I st') st)
    (hbody : ∀ st, I st → inside st → inside' st ∧ wlp body (fun _ st' => I st') st)
    (hcondition : ∀ st, I st → wlp condition (fun _ st' => I st') st)
    (htest : ∀ st, I st → test st → test' st) (n i : Nat) (go : Bool) (st : Mem L V × Sh) (hst : I st)
    (h : alongTurns push body condition test inside n i go st) :
    alongTurns push body condition test' inside' n i go st ∧
      wlp (Phase.turns push body condition n i go) (fun _ st' => I st') st := by
  induction n generalizing i go st with
  | zero =>
      cases go with
      | false => exact ⟨trivial, wlp_pure.mpr hst⟩
      | true => exact ⟨trivial, wlp_throw⟩
  | succ n ih =>
      cases go with
      | false => exact ⟨trivial, wlp_pure.mpr hst⟩
      | true =>
          have turn := ((hpush (i + 1) st hst).and h).mono fun _ st₁ here =>
            And.intro (hbody st₁ here.1 here.2.1) here.2.2
          have again := turn.mono fun _ st₁ here => And.intro here.1.1
            ((here.1.2.and here.2).mono fun _ st₂ done =>
              And.intro (htest st₂ done.1 done.2.1)
                (((hcondition st₂ done.1).and done.2.2).mono fun go st₃ next =>
                  ih (i + 1) go st₃ next.1 next.2))
          constructor
          · exact again.mono fun _ _ here => ⟨here.1, here.2.mono fun _ _ done =>
              ⟨done.1, done.2.mono fun _ _ next => next.1⟩⟩
          · simp only [Phase.turns, wlp_bind]
            refine again.mono fun _ _ here => ?_
            rw [wlp_bind]
            refine here.2.mono fun _ _ done => ?_
            rw [wlp_bind]
            exact done.2.mono fun _ _ next => next.2

theorem follows_whileLoop {body : Stmt L} (stores : backend.Stores host object) (o : Origin)
    (name : VarName) (c : VarRef Unit L)
    (bodyFollows : Follows host backend rightFirst object mapped prog n body) :
    Follows host backend rightFirst object mapped prog n (.whileLoop o name c body) := by
  intro stale st coherent fresh follow
  have freshBody : ∀ x, body.Reads x → ∀ handleType n, ¬ stale x handleType n :=
    fun x hx => fresh x hx.whileBody
  have condition : ∀ st : Mem L V × Sh, Coherent host object mapped stale st.1 st.2 →
      wlp (do
          let v ← Phase.Exec.ofAct fun m : Mem L V =>
            Phase.eval host backend rightFirst m (.varReference c.var)
          pure (host.truth v))
        (fun _ st' => Coherent host object mapped stale st'.1 st'.2) st := by
    intro st here
    rw [wlp_bind]
    exact (read_coherent stores c.var here).mono fun v _ after => wlp_pure.mpr after
  have test : ∀ st : Mem L V × Sh, Coherent host object mapped stale st.1 st.2 →
      ReadsCurrent host object (.whileLoop o name c body) st := fun st here =>
    readsCurrent here fresh
  have started := (bind_coherent stores name (host.ofInt 0) coherent).and follow
  have looped := started.mono fun _ st₁ here => And.intro (test st₁ here.1)
    (((condition st₁ here.1).and here.2.2).mono fun go st₂ next =>
      follows_turns (fun i st here => push_coherent stores name (host.ofInt i) here)
        (fun st here inside => bodyFollows stale st here freshBody inside) condition
        (fun st here _ => test st here) n 0 go st₂ next.1 next.2)
  constructor
  · exact looped.mono fun _ _ here => ⟨here.1, here.2.mono fun _ _ next => next.1⟩
  · rw [Stmt.toPhase, Phase.exec, wlp_bind]
    refine looped.mono fun _ _ here => ?_
    rw [wlp_bind]
    exact here.2.mono fun _ _ next => next.2

/-- A let, over memories where what its operation makes stale is counted as such. -/
theorem follows_let {body : Stmt L} (stores : backend.Stores host object) {o : Origin}
    {b : Binding L L (Expression Unit L)}
    (bodyFollows : Follows host backend rightFirst object mapped prog n body)
    (coherent : Coherent host object mapped stale st.1 st.2)
    (covered : ∀ hd, formHandle b.expr.form = some hd → ∀ n, Denotes host backend st hd.var n →
      ∀ y handleType, st.1.Refers host y handleType n → stale y handleType n)
    (reads : ReadsCurrent host object (.letIn o b body) st)
    (freshBody : ∀ x, body.Reads x → ∀ handleType n, ¬ stale x handleType n)
    (follow : Along host backend rightFirst (AliasesFollow host backend prog) n
      (.letIn o b body) st) :
    Along host backend rightFirst (ReadsCurrent host object) n (.letIn o b body) st ∧
      wlp (Phase.exec host backend rightFirst n (Stmt.letIn o b body).toPhase)
        (fun _ st' => Coherent host object mapped stale st'.1 st'.2) st := by
  have evaluated : wlp
      (Phase.Exec.ofAct fun m => Phase.eval host backend rightFirst m (toExpr b.expr.form))
      (fun _ st' => Coherent host object mapped stale st'.1 st'.2) st := by
    rw [Phase.wlp_ofAct]
    exact eval_coherent stores coherent covered
  have inner := (evaluated.and follow.2).mono fun v st₁ here =>
    ((bind_coherent stores b.var v here.1).and here.2).mono fun _ st₂ bound =>
      bodyFollows stale st₂ bound.1 freshBody bound.2
  refine ⟨⟨reads, inner.mono fun v _ h => h.mono fun _ _ h => h.1⟩, ?_⟩
  simp only [Stmt.toPhase, Phase.exec, wlp_bind]
  refine inner.mono fun v st₁ h => ?_
  rw [wlp_bind]
  exact h.mono fun _ _ h => h.2

theorem follows_letIn {body : Stmt L} (stores : backend.Stores host object) (o : Origin)
    {b : Binding L L (Expression Unit L)}
    (dropped : ∀ hd, formHandle b.expr.form = some hd →
      ¬ (Inherited prog hd.var ∧ mapped hd.yield))
    (bodyFollows : Follows host backend rightFirst object mapped prog n body) :
    Follows host backend rightFirst object mapped prog n (.letIn o b body) := by
  intro stale st coherent fresh follow
  apply follows_let stores bodyFollows coherent
  · exact unaliased coherent follow.1 dropped
  · exact readsCurrent coherent fresh
  · exact fun x hx => fresh x hx.letBody
  · exact follow

/-- What an operation of the statement makes stale. -/
def Acted (host : Phase.Host V F) (backend : Phase.Backend V F Sh) (s : Stmt L)
    (st : Mem L V × Sh) (y : VarName) (handleType : Ty L) (n : Nat) : Prop :=
  ∃ hd, s.handleOf = some hd ∧ Denotes host backend st hd.var n ∧ st.1.Refers host y handleType n

omit [DecidableEq L] in
/-- The object behind a handle in a variable. -/
theorem Denotes.eq {x : VarName} {n : Nat} (h : Denotes host backend st x n)
    (constant : Builtin.isBuiltinVar x = false) : n = host.name (st.1.get host x) := by
  obtain ⟨v, sh, hrun, rfl⟩ := h
  simp only [Builtin.isBuiltinVar, Bool.or_eq_false_iff, decide_eq_false_iff_not] at constant
  simp only [Phase.getVar, constant, if_false] at hrun
  cases hrun
  rfl

/-- After an operation and the refresh of its object, everything is as current as before. -/
theorem refresh_acted (stores : backend.Stores host object) {hd : VarRef Unit L} (o : Origin)
    {st' : Mem L V × Sh} (handle : ∀ hd', s.handleOf = some hd' → hd' = hd)
    (follow : AliasesFollow host backend prog s st)
    (same : ∀ y, RefreshedBeforeRead s hd st.1 y →
      st'.1.get host hd.var = st.1.get host hd.var)
    (coherent : Coherent host object mapped (fun y handleType n => stale y handleType n ∨
      Acted host backend s st y handleType n) st'.1 st'.2) :
    wlp (Phase.exec host backend rightFirst n (Stmt.refreshRemoteOccurance o hd).toPhase)
      (fun _ st'' => Coherent host object mapped stale st''.1 st''.2) st' := by
  refine (refresh_coherent stores o hd coherent).mono ?_
  rintro - st'' ⟨n', denotes', after⟩
  apply after.mono
  rintro y handleType m - ⟨old | ⟨hd', found, denotes, refers⟩, other⟩
  · exact old
  · obtain rfl := handle hd' found
    obtain ⟨sameType, inherited, refreshed⟩ := follow hd' found m denotes y handleType refers
    have here : m = n' := by
      rw [denotes.eq inherited.2, denotes'.eq inherited.2, same y refreshed]
    exact absurd ⟨sameType, here⟩ other

theorem wlp_refreshed {t : Stmt L} {Q : Unit → Mem L V × Sh → Prop} :
    wlp (Phase.exec host backend rightFirst n (Stmt.cons s (.cons t .nil)).toPhase) Q st ↔
      wlp (Phase.exec host backend rightFirst n s.toPhase)
        (fun _ st' => wlp (Phase.exec host backend rightFirst n t.toPhase) Q st') st := by
  rw [Stmt.toPhase, Phase.exec, wlp_bind, Stmt.toPhase, Phase.exec, Stmt.toPhase, Phase.exec,
    bind_pure_unit]

theorem follows_operation (stores : backend.Stores host object) (o o' : Origin) (name : OperName)
    (h : VarRef Unit L) (args : List (VarRef Unit L)) :
    Follows host backend rightFirst object mapped prog n
      (.cons (.operation o name h args) (.cons (.refreshRemoteOccurance o' h) .nil)) := by
  intro stale st coherent fresh follow
  have freshHere : ∀ x, (Stmt.operation o name h args).Reads x → ∀ handleType n,
      ¬ stale x handleType n := fun x hx => fresh x hx.first
  have handle : ∀ hd', (Stmt.operation o name h args : Stmt L).handleOf = some hd' → hd' = h := by
    intro hd' found
    simp only [Stmt.handleOf, formHandle, Option.ite_none_right_eq_some,
      Option.some.injEq] at found
    exact found.2.symm
  have counted : Coherent host object mapped (fun y handleType n => stale y handleType n ∨
      Acted host backend (.operation o name h args) st y handleType n) st.1 st.2 :=
    coherent.mono fun _ _ _ _ => Or.inl
  have operated : wlp (Phase.exec host backend rightFirst n
        (Stmt.operation o name h args : Stmt L).toPhase)
      (fun _ st' => wlp (Phase.exec host backend rightFirst n
          (Stmt.refreshRemoteOccurance o' h : Stmt L).toPhase)
        (fun _ st'' => Coherent host object mapped stale st''.1 st''.2) st') st := by
    rw [Stmt.toPhase, Phase.exec, wlp_bind, Phase.wlp_ofAct]
    refine (eval_coherent stores (e := .operation name h args) counted
      fun hd found n' denotes y handleType refers => Or.inr ⟨hd, found, denotes, refers⟩).mono
        fun _ sh after => ?_
    have here : Coherent host object mapped (fun y handleType n => stale y handleType n ∨
        Acted host backend (.operation o name h args) st y handleType n)
        (st.1, sh).1 (st.1, sh).2 := after
    rw [wlp_pure]
    exact refresh_acted stores o' handle follow.1 (fun _ _ => rfl) here
  refine ⟨⟨readsCurrent coherent freshHere, operated.mono fun _ st' after => ?_⟩, ?_⟩
  · exact ⟨by simp [Along, ReadsCurrent, Stmt.operands], after.mono fun _ _ _ => trivial⟩
  · exact wlp_refreshed.mpr operated

theorem follows_letOperation {body : Stmt L} (stores : backend.Stores host object)
    (o o' : Origin) {b : Binding L L (Expression Unit L)} {name : OperName} {h : VarRef Unit L}
    {args : List (VarRef Unit L)} (form : b.expr.form = .operation name h args)
    (bodyFollows : Follows host backend rightFirst object mapped prog n body) :
    Follows host backend rightFirst object mapped prog n
      (.cons (.letIn o b body) (.cons (.refreshRemoteOccurance o' h) .nil)) := by
  intro stale st coherent fresh follow
  have freshHere : ∀ x, (Stmt.letIn o b body).Reads x → ∀ handleType n, ¬ stale x handleType n :=
    fun x hx => fresh x hx.first
  have handle : ∀ hd', (Stmt.letIn o b body).handleOf = some hd' → hd' = h := by
    intro hd' found
    simp only [Stmt.handleOf, form, formHandle, Option.ite_none_right_eq_some,
      Option.some.injEq] at found
    exact found.2.symm
  have counted : Coherent host object mapped (fun y handleType n => stale y handleType n ∨
      Acted host backend (.letIn o b body) st y handleType n) st.1 st.2 :=
    coherent.mono fun _ _ _ _ => Or.inl
  -- until the refresh, the body reads nothing of what the operation makes stale
  have freshBody : ∀ x, body.Reads x → ∀ handleType n, ¬ (stale x handleType n ∨
      Acted host backend (.letIn o b body) st x handleType n) := by
    rintro x hx handleType n' (old | ⟨hd, found, denotes, refers⟩)
    · exact freshHere x hx.letBody handleType n' old
    · exact (follow.1.1 hd found n' denotes x handleType refers).2.2.1 hx
  obtain ⟨reads, after⟩ := follows_let stores bodyFollows counted
    (fun hd found n' denotes y handleType refers => Or.inr ⟨hd, found, denotes, refers⟩)
    (readsCurrent coherent freshHere) freshBody follow.1
  have framed : wlp (Phase.exec host backend rightFirst n (Stmt.letIn o b body).toPhase)
      (fun _ st' => h.var ∉ (Stmt.letIn o b body).writes →
        HolderIs h.var (st.1.holders h.var) st') st := by
    by_cases unwritten : h.var ∉ (Stmt.letIn o b body).writes
    · exact ((exec_frame n unwritten).wlp (s := st) rfl).mono fun _ _ same _ => same
    · exact fun _ _ _ inside => absurd inside unwritten
  have unmoved {st' : Mem L V × Sh} (kept : h.var ∉ (Stmt.letIn o b body).writes →
      HolderIs h.var (st.1.holders h.var) st') (y : VarName)
      (between : RefreshedBeforeRead (.letIn o b body) h st.1 y) :
      st'.1.get host h.var = st.1.get host h.var := by
    have same := kept between.2.1
    unfold HolderIs at same
    have isLocal := between.2.2
    unfold Mem.get
    rw [same]
    cases holder : st.1.holders h.var with
    | remote handleType held currPos => exact absurd holder (isLocal _ _ _)
    | _ => rfl
  have refreshed := (after.and framed).mono fun _ st' here =>
    (refresh_acted stores o' handle follow.1.1 (unmoved here.2) here.1 :
      wlp (Phase.exec host backend rightFirst n (Stmt.refreshRemoteOccurance o' h).toPhase) _ st')
  refine ⟨⟨reads, refreshed.mono fun _ st' done => ?_⟩, ?_⟩
  · exact ⟨by simp [Along, ReadsCurrent, Stmt.operands], done.mono fun _ _ _ => trivial⟩
  · exact wlp_refreshed.mpr refreshed

/-- Where a phase refreshes what its operations act on, memories stay coherent and what is
read on the way is current. -/
theorem Stmt.Refreshes.follows (stores : backend.Stores host object)
    (h : s.Refreshes fun hd => Inherited prog hd.var ∧ mapped hd.yield) :
    Follows host backend rightFirst object mapped prog n s := by
  induction h with
  | simple simple none dropped => exact follows_simple stores simple none dropped
  | operation o o' name h args => exact follows_operation stores o o' name h args
  | letIn o dropped _ ih => exact follows_letIn stores o dropped ih
  | letOperation o o' form _ ih => exact follows_letOperation stores o o' form ih
  | letRemote o b _ ih => exact follows_letRemote stores o b ih
  | ifThen o c _ _ iht ihe => exact follows_ifThen stores o c iht ihe
  | whileLoop o name c _ ih => exact follows_whileLoop stores o name c ih
  | cons _ _ ihf ihr => exact follows_cons ihf ihr
  | regroup same _ ih => exact follows_regroup same ih

end Run

/-- The store before the phase of a program of one label: the types have maps, and nothing
is fetched. -/
structure Starts (types : List (Ty L)) (m : Mem L V) : Prop where
  unbound : ∀ x handleType handle currPos, m.holders x = .remote handleType handle currPos →
    handleType ∈ types ∧ handle = [] ∧ currPos = -1
  unfetched : ∀ handleType n, m.super handleType n = .empty

omit [DecidableEq L] in
theorem Starts.coherent {types : List (Ty L)} {m : Mem L V} (starts : Starts types m) (sh : Sh) :
    Coherent host object (· ∈ types) (fun _ _ _ => False) m sh := by
  refine ⟨fun x handleType handle currPos holder => ?_, fun handleType n => ?_, ?_⟩
  · obtain ⟨mapped, rfl, rfl⟩ := starts.unbound x handleType handle currPos holder
    exact ⟨mapped, Phase.TypeHolder.full_empty⟩
  · rw [starts.unfetched]
    exact Phase.TypeHolder.full_empty
  · rintro x handleType n ⟨handle, currPos, holder, bound, -⟩
    obtain ⟨-, -, rfl⟩ := starts.unbound x handleType handle currPos holder
    exact absurd bound (by decide)

end Coherent

/-- In every run of a program of one label whose operations meet the condition, each read of
a remote variable gives what the last operation on its object has left. -/
theorem aliases_current {L : Type} [LinearOrder L] [BoundedOrder L] (k : L)
    (inherits : List (VarBinding L)) (prog : Statement L L) (c : Collected L)
    (single : SingleLabel k prog) (collected : collectPhase k inherits [] [] prog = .ok c)
    {V F Sh : Type} [Inhabited V] (host : Phase.Host V F) (backend : Phase.Backend V F Sh)
    (object : Phase.Objects V Sh) (stores : backend.Stores host object)
    (rightFirst : List Phase.Expr → Bool) (n : Nat) (m : Phase.Mem L V) (sh : Sh)
    (starts : Starts (mapTypes prog) m)
    (follow : Along host backend rightFirst (AliasesFollow host backend prog) n
      ((finalPhase k inherits c).ast.forStore (mapTypes prog)) (m, sh)) :
    Along host backend rightFirst (ReadsCurrent host object) n
      ((finalPhase k inherits c).ast.forStore (mapTypes prog)) (m, sh) := by
  have refreshes : Stmt.Refreshes _ ((finalPhase k inherits c).ast.forStore (mapTypes prog)) :=
    finalPhase_refreshes single collected
  exact (refreshes.follows stores (fun _ _ _ => False) (m, sh) (starts.coherent sh)
    (fun _ _ _ _ => id) follow).1

section FourLabels

open Inference (FourLabels strong)
open Phase (Change Mem)

def xName : VarName := .ident ['x']

def yName : VarName := .ident ['y']

def rName : VarName := .ident ['r']

/-- Counters behind handles that give what they have counted. -/
def counting : HostTypes FourLabels := ⟨fun _ _ => none, fun _ _ _ => none, fun _ _ _ => some .int⟩

/-- Integers, all of them handles of one counter. -/
def counterHost : Phase.Host Int Unit where
  ofInt i := i
  ofBool b := if b then 1 else 0
  truth v := v ≠ 0
  count v := v.toNat
  binOp _ _ _ := .error ()
  field v _ := v
  setField _ _ v := v
  nulled v := v
  name _ := 0

/-- A store of one counter, and nothing else. -/
def counterStore : Phase.Backend Int Unit (Change × Int) where
  get _ := ExceptT.mk fun sh => (.ok sh.2, sh)
  put _ v := ExceptT.mk fun _ => (.ok (), (.written, v))
  isValid _ := pure 1
  createNew _ _ := throw ()
  act _ _ _ := ExceptT.mk fun sh => (.ok (sh.2 + 1), (.operated, sh.2 + 1))
  readTracking _ := pure ()
  accompanyWrite _ _ := pure ()
  writeTombstone _ := pure ()
  generateTombstone := throw ()
  listStub := throw ()
  ensureList _ := pure ()
  pushBack _ _ := throw ()

def counterObject : Phase.Objects Int (Change × Int) := fun sh n => if n = 0 then some sh else none

theorem counterStore_stores : counterStore.Stores counterHost counterObject := by
  have failing : ∀ {α : Type}, Phase.Steady counterObject
      (throw () : Phase.Act Unit (Change × Int) α) := fun _ => wlp_throw
  refine ⟨?_, ?_, ?_, fun _ => Phase.steady_pure _, fun _ _ => failing,
    fun _ => Phase.steady_pure _, fun _ _ => Phase.steady_pure _, fun _ => Phase.steady_pure _,
    failing, failing, fun _ => Phase.steady_pure _, fun _ _ => failing⟩
  · rintro h ⟨change, v⟩ _ _ hrun
    cases hrun
    exact ⟨.refl _, change, rfl⟩
  · rintro h v sh _ _ hrun
    cases hrun
    refine ⟨fun n o other held => ?_, rfl⟩
    simp only [counterObject, counterHost] at other held ⊢
    rw [if_neg other] at held
    cases held
  · rintro name h vs sh _ _ hrun
    cases hrun
    refine ⟨fun n o other held => ?_, _, rfl⟩
    simp only [counterObject, counterHost] at other held ⊢
    rw [if_neg other] at held
    cases held

/-- The store of a program that binds `x` remotely. -/
def counterMem : Mem FourLabels Int where
  holders z :=
    if z = xName then .remote (counter strong) [] (-1)
    else if z = hName then .type ⟨[0], 0⟩
    else .value none
  super _ _ := .empty

theorem counterMem_starts : Starts [counter strong] counterMem := by
  refine ⟨fun z handleType handle currPos holder => ?_, fun _ _ => rfl⟩
  simp only [counterMem] at holder
  split at holder
  · cases holder
    exact ⟨List.mem_singleton_self _, rfl, rfl⟩
  · split at holder
    · cases holder
    · cases holder

/-- `h`, as it occurs. -/
def hRef : VarRef FourLabels FourLabels := ⟨⊤, counter strong, hName⟩

/-- `remote x = h, ...`. -/
def bindingX (body : Statement FourLabels FourLabels) : Statement FourLabels FourLabels :=
  .letRemote strong ⟨strong, .int, xName, hRef⟩ body

/-- `var y = x`. -/
def readingX : Statement FourLabels FourLabels :=
  .letIn strong ⟨strong, .int, yName, ⟨strong, .int, .varReference xName⟩⟩ (.nil ⊤)

/-- `remote x = h, { h.incr(), var y = x }`. -/
def incrThenRead : Statement FourLabels FourLabels :=
  bindingX (.cons ⊤ (.operation strong incr hRef []) (.cons ⊤ readingX (.nil ⊤)))

def unlabelled : VarRef Unit FourLabels := ⟨(), counter strong, hName⟩

def incrThenReadCollected : Collected FourLabels :=
  ⟨[.type ⟨hName, counter strong, ⊤, .localVar⟩, .type ⟨hName, counter strong, ⊤, .localVar⟩],
    [.type ⟨xName, counter strong, strong, .remoteVar⟩, .type ⟨yName, .int, strong, .localVar⟩],
    .letRemote [] ⟨strong, .int, xName, unlabelled⟩
      (.cons (.operation [0, 0] incr unlabelled []) (.cons (.refreshRemoteOccurance [0, 0] unlabelled)
        (.cons (.letIn [0, 1, 0] ⟨strong, .int, yName, ⟨(), .int, .varReference xName⟩⟩ .nil)
          .nil)))⟩

theorem incrThenRead_current :
    Along counterHost counterStore (fun _ => false) (ReadsCurrent counterHost counterObject) 0
      ((finalPhase strong ((startBindings [(hName, counter strong)]).map .type)
        incrThenReadCollected).ast.forStore (mapTypes incrThenRead)) (counterMem, (.written, 0)) := by
  apply aliases_current strong _ incrThenRead incrThenReadCollected ⟨rfl, rfl, ⟨rfl, trivial⟩, trivial⟩
    (by decide) counterHost counterStore counterObject counterStore_stores (fun _ => false) 0
    counterMem (.written, 0) counterMem_starts
  refine ⟨fun hd found => (by cases found), fun v st hrun => ?_⟩
  cases hrun
  intro _ st hrun
  cases hrun
  refine ⟨fun hd found n denotes y handleType refers => ?_, fun _ st _ => ?_⟩
  · cases found
    obtain ⟨handle, currPos, holder, -⟩ := refers
    refine ⟨?_, ⟨by decide, by decide⟩, trivial⟩
    by_cases here : y = xName
    · subst here
      cases holder
      rfl
    · have old : counterMem.holders y = .remote handleType handle currPos := by
        simpa [Mem.setSuper, Mem.setHolder, here] using holder
      exact List.mem_singleton.mp (counterMem_starts.unbound y _ _ _ old).1
  · refine ⟨fun hd found => (by cases found), fun _ st _ => ?_⟩
    exact ⟨⟨fun hd found => (by cases found), fun _ st _ _ st _ => trivial⟩, fun _ st _ => trivial⟩

/-- `remote x = h, var r = h.incr(), var y = x`: the read is in the body of the let. -/
def readInLet : Parsed.Stmt FourLabels :=
  .letRemote xName hName (.letIn rName (.operation incr hName [])
    (.letIn yName (.varReference xName) .nil))

def readInLetProg : Statement FourLabels FourLabels :=
  bindingX (.letIn strong ⟨strong, .int, rName, ⟨strong, .int, .operation incr hRef []⟩⟩ readingX)

def readInLetCollected : Collected FourLabels :=
  ⟨[.type ⟨hName, counter strong, ⊤, .localVar⟩, .type ⟨hName, counter strong, ⊤, .localVar⟩],
    [.type ⟨xName, counter strong, strong, .remoteVar⟩, .type ⟨rName, .int, strong, .localVar⟩,
      .type ⟨yName, .int, strong, .localVar⟩],
    .letRemote [] ⟨strong, .int, xName, unlabelled⟩
      (.cons (.letIn [0] ⟨strong, .int, rName, ⟨(), .int, .operation incr unlabelled []⟩⟩
          (.letIn [0, 0] ⟨strong, .int, yName, ⟨(), .int, .varReference xName⟩⟩ .nil))
        (.cons (.refreshRemoteOccurance [0] unlabelled) .nil))⟩

/-- The counter stands at one, and `y` gets zero. -/
theorem readInLet_stale :
    Inference.Accepted .insertion counting (Lookup.first _ _) [(hName, counter strong)] readInLet
      readInLetProg ∧
    SingleLabel strong readInLetProg ∧
    collectPhase strong ((startBindings [(hName, counter strong)]).map .type) [] [] readInLetProg =
      .ok readInLetCollected ∧
    counterStore.Stores counterHost counterObject ∧ Starts (mapTypes readInLetProg) counterMem ∧
    ¬ Along counterHost counterStore (fun _ => false) (ReadsCurrent counterHost counterObject) 0
      ((finalPhase strong ((startBindings [(hName, counter strong)]).map .type)
        readInLetCollected).ast.forStore (mapTypes readInLetProg)) (counterMem, (.written, 0)) := by
  refine ⟨⟨(typecheckTransaction counting (Lookup.first _ _) [(hName, counter strong)]
      readInLet).get (by decide), (Option.some_get _).symm, by decide⟩, ⟨rfl, rfl, rfl, trivial⟩,
    by decide, counterStore_stores, counterMem_starts, fun current => ?_⟩
  have bound := current.2 0 (counterMem, (.written, 0)) rfl () _ rfl
  have read := (bound.1.2 1 _ rfl () _ rfl).1 xName (List.mem_singleton_self _) (counter strong) 0 1
    ⟨[0], 0, rfl, le_refl 0, rfl⟩ rfl
  exact absurd read (by decide)

end FourLabels

end MixT.Split
