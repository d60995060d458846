import MixT.Phase.Beside
import MixT.Split.Frame

/-! # Phases that log what they come to

Beside what it does, a phase keeps a log: the statements that it comes to, which way its
conditions go, and how often its loops turn. What it does is the same without the log. -/

namespace MixT.Split

open Library Eff

/-- A statement in a run: its place in the source tree, and the turns of the loops around
it, the innermost first. -/
structure Point where
  place : Origin
  turns : List Nat
  deriving DecidableEq, Repr

/-- What a phase comes to. A loop whose condition it evaluates is logged after its last
turn, a loop that repeats an earlier phase's turns before its first. -/
inductive Event
  | did (p : Point)
  | returned (p : Point)
  | branched (p : Point) (taken : Bool)
  | evaluated (p : Point) (name : VarName) (count : Nat)
  | replayed (p : Point) (name : VarName) (count : Nat)
  deriving DecidableEq, Repr

section Logged

variable {L V F Sh : Type}

/-- An execution that adds to a log. -/
abbrev Logging (L V F Sh α : Type) := Phase.Exec L V F (Sh × List Event) α

def record (e : Event) : Logging L V F Sh Unit :=
  ExceptT.mk fun s => (.ok (), s.1, s.2.1, s.2.2 ++ [e])

/-- The turns of a loop, where the body is told which turn it is, and how many they were. -/
def loggedTurns (push : Nat → Logging L V F Sh Unit) (body : Nat → Logging L V F Sh Unit)
    (condition : Logging L V F Sh Bool) : Nat → Nat → Bool → Logging L V F Sh Nat
  | _, i, false => pure i
  | 0, _, true => throw .outOfTurns
  | n + 1, i, true => do
      push (i + 1)
      body i
      let go ← condition
      loggedTurns push body condition n (i + 1) go

def loggedRepeats (body : Nat → Logging L V F Sh Unit) : Nat → Nat → Logging L V F Sh Unit
  | 0, _ => pure ()
  | n + 1, i => do
      body i
      loggedRepeats body n (i + 1)

variable [Inhabited V] [DecidableEq L] (host : Phase.Host V F) (backend : Phase.Backend V F Sh)
  (rightFirst : List Phase.Expr → Bool)

/-- `run_phase` with a log. -/
def logged (n : Nat) : Stmt L → List Nat → Logging L V F Sh Unit
  | .letIn o b body, turns => do
      record (.did ⟨o, turns⟩)
      let v ← Phase.Exec.ofAct fun m =>
        Phase.eval host backend.beside rightFirst m (toExpr b.expr.form)
      Phase.Exec.change fun m => m.bind host backend.beside b.var v
      logged n body turns
  | .letRemote o b body, turns => do
      record (.did ⟨o, turns⟩)
      let v ← Phase.Exec.ofAct fun m =>
        Phase.eval host backend.beside rightFirst m (.varReference b.expr.var)
      Phase.Exec.change fun m => m.bind host backend.beside b.var v
      logged n body turns
  | .ret o e, turns => do
      record (.returned ⟨o, turns⟩)
      Phase.exec host backend.beside rightFirst n (Stmt.ret o e).toPhase
  | .incrementOccurance o x, _ =>
      Phase.exec host backend.beside rightFirst n (Stmt.incrementOccurance o x).toPhase
  | .incrementRemoteOccurance o x, _ =>
      Phase.exec host backend.beside rightFirst n (Stmt.incrementRemoteOccurance o x).toPhase
  | .refreshRemoteOccurance o h, _ =>
      Phase.exec host backend.beside rightFirst n (Stmt.refreshRemoteOccurance o h).toPhase
  | .ifThen o c t e, turns => do
      let v ← Phase.Exec.ofAct fun m =>
        Phase.eval host backend.beside rightFirst m (.varReference c.var)
      record (.branched ⟨o, turns⟩ (host.truth v))
      if host.truth v then logged n t turns else logged n e turns
  | .whileLoop o name c body, turns => do
      Phase.Exec.change fun m => m.bind host backend.beside name (host.ofInt 0)
      let condition := do
        let v ← Phase.Exec.ofAct fun m =>
          Phase.eval host backend.beside rightFirst m (.varReference c.var)
        pure (host.truth v)
      let go ← condition
      let count ← loggedTurns
        (fun i => Phase.Exec.change fun m => m.push host backend.beside name (host.ofInt i))
        (fun i => logged n body (i :: turns)) condition n 0 go
      record (.evaluated ⟨o, turns⟩ name count)
  | .forEach o name body, turns => do
      let bound ← Phase.Exec.ofAct fun m => Phase.getVar host backend.beside m name
      record (.replayed ⟨o, turns⟩ name (host.count bound))
      loggedRepeats (fun i => logged n body (i :: turns)) (host.count bound) 0
  | .nil, _ => pure ()
  | .cons first rest, turns => do
      logged n first turns
      logged n rest turns
  | .operation o name h args, turns => do
      record (.did ⟨o, turns⟩)
      Phase.exec host backend.beside rightFirst n (Stmt.operation o name h args).toPhase
  | .assignment o target e, turns => do
      record (.did ⟨o, turns⟩)
      Phase.exec host backend.beside rightFirst n (Stmt.assignment o target e).toPhase
  | .accompanyWrite o target, turns => do
      record (.did ⟨o, turns⟩)
      Phase.exec host backend.beside rightFirst n (Stmt.accompanyWrite o target).toPhase
  | .writeTombstone o e, turns => do
      record (.did ⟨o, turns⟩)
      Phase.exec host backend.beside rightFirst n (Stmt.writeTombstone o e).toPhase

end Logged

section Silent

open Phase (Mem)

variable {L V F Sh α β : Type} {allowed : Bool}

/-- An execution that returns only where it may. -/
def Returns (allowed : Bool) (a : Phase.Exec L V F Sh α) : Prop :=
  ∀ st v, (a.run st).1 = .error (.returned v) → allowed = true

theorem returns_pure (v : α) : Returns allowed (pure v : Phase.Exec L V F Sh α) :=
  fun _ _ returned => by cases returned

theorem Returns.bind {a : Phase.Exec L V F Sh α} {f : α → Phase.Exec L V F Sh β}
    (ha : Returns allowed a) (hf : ∀ v, Returns allowed (f v)) : Returns allowed (a >>= f) := by
  intro st v
  have first := ha st
  rw [run_bind]
  rcases hrun : a.run st with ⟨e | w, st'⟩ <;> rw [hrun] at first
  · intro returned
    cases returned
    exact first v rfl
  · exact hf w st' v

theorem returns_ofAct (a : Mem L V → Phase.Act F Sh α) : Returns allowed (Phase.Exec.ofAct a) := by
  intro st v
  rcases hrun : (a st.1).run st.2 with ⟨f | w, sh⟩ <;>
    simp [Phase.Exec.ofAct, ExceptT.run_mk, hrun]

theorem returns_change (a : Mem L V → Phase.Act F Sh (Mem L V)) :
    Returns allowed (Phase.Exec.change a) := by
  intro st v
  rcases hrun : (a st.1).run st.2 with ⟨f | m, sh⟩ <;>
    simp [Phase.Exec.change, ExceptT.run_mk, hrun]

/-- An execution that leaves the log alone, and returns only where it may. -/
structure Silent (allowed : Bool) (a : Logging L V F Sh α) : Prop where
  log : ∀ st, (a.run st).2.2.2 = st.2.2
  returns : Returns allowed a

theorem silent_pure (v : α) : Silent allowed (pure v : Logging L V F Sh α) :=
  ⟨fun _ => rfl, returns_pure v⟩

theorem Silent.bind {a : Logging L V F Sh α} {f : α → Logging L V F Sh β} (ha : Silent allowed a)
    (hf : ∀ v, Silent allowed (f v)) : Silent allowed (a >>= f) := by
  refine ⟨fun st => ?_, ha.returns.bind fun v => (hf v).returns⟩
  have first := ha.log st
  rw [run_bind]
  rcases hrun : a.run st with ⟨e | v, st'⟩ <;> rw [hrun] at first
  · exact first
  · exact ((hf v).log st').trans first

theorem silent_ofAct {a : Mem L V → Phase.Act F (Sh × List Event) α}
    (h : ∀ m log, Keeps (fun sh : Sh × List Event => sh.2 = log) (fun _ => True) (a m)) :
    Silent allowed (Phase.Exec.ofAct a) := by
  refine ⟨fun st => ?_, returns_ofAct a⟩
  have kept := (h st.1 st.2.2 st.2 rfl).1
  rcases hrun : (a st.1).run st.2 with ⟨f | v, sh⟩ <;> rw [hrun] at kept <;>
    simpa only [Phase.Exec.ofAct, ExceptT.run_mk, hrun] using kept

theorem silent_change {a : Mem L V → Phase.Act F (Sh × List Event) (Mem L V)}
    (h : ∀ m log, Keeps (fun sh : Sh × List Event => sh.2 = log) (fun _ => True) (a m)) :
    Silent allowed (Phase.Exec.change a) := by
  refine ⟨fun st => ?_, returns_change a⟩
  have kept := (h st.1 st.2.2 st.2 rfl).1
  rcases hrun : (a st.1).run st.2 with ⟨f | m, sh⟩ <;> rw [hrun] at kept <;>
    simpa only [Phase.Exec.change, ExceptT.run_mk, hrun] using kept

variable {host : Phase.Host V F}

theorem host_fails : host.Fails fun _ => True := fun _ _ _ _ _ => trivial

variable [Inhabited V] {backend : Phase.Backend V F Sh} {rightFirst : List Phase.Expr → Bool}

theorem silent_eval (e : Phase.Expr) :
    Silent allowed (Phase.Exec.ofAct fun m : Mem L V => Phase.eval host
      (backend.beside : Phase.Backend V F (Sh × List Event)) rightFirst m e) :=
  silent_ofAct fun m log => Phase.eval_keeps host_fails (backend.beside_keeps log) m e

variable [DecidableEq L]

theorem silent_bind (x : VarName) (v : V) :
    Silent allowed (Phase.Exec.change fun m : Mem L V => m.bind host
      (backend.beside : Phase.Backend V F (Sh × List Event)) x v) :=
  silent_change fun m log => Phase.bind_keeps (backend.beside_keeps log) m x v

theorem silent_push (x : VarName) (v : V) :
    Silent allowed (Phase.Exec.change fun m : Mem L V => m.push host
      (backend.beside : Phase.Backend V F (Sh × List Event)) x v) :=
  silent_change fun m log => Phase.push_keeps (backend.beside_keeps log) m x v

theorem returns_exec (n : Nat) {s : Stmt L} (simple : s.simple = true)
    (returns : ∀ o e, s = .ret o e → allowed = true) :
    Returns allowed (Phase.exec host backend rightFirst n s.toPhase) := by
  cases s with
  | ret o e => exact fun _ _ _ => returns o e rfl
  | operation o name h args => exact (returns_ofAct _).bind fun _ => returns_pure ()
  | assignment o target e =>
      cases target with
      | var x => exact (returns_ofAct _).bind fun _ => returns_change _
      | field label yield struct f =>
          exact (returns_ofAct _).bind fun _ => (returns_ofAct _).bind fun _ => returns_change _
  | accompanyWrite o target => exact returns_ofAct _
  | writeTombstone o e => exact returns_ofAct _
  | incrementOccurance o x => exact returns_change _
  | incrementRemoteOccurance o x => exact returns_change _
  | refreshRemoteOccurance o h => exact (returns_ofAct _).bind fun _ => returns_change _
  | nil => exact returns_pure ()
  | _ => simp [Stmt.simple] at simple

theorem silent_exec (n : Nat) {s : Stmt L} (simple : s.simple = true)
    (returns : ∀ o e, s = .ret o e → allowed = true) :
    Silent allowed (Phase.exec host (backend.beside : Phase.Backend V F (Sh × List Event))
      rightFirst n s.toPhase) := by
  refine ⟨fun st => ?_, returns_exec n simple returns⟩
  exact (Phase.exec_keeps host_fails (backend.beside_keeps st.2.2) n s.toPhase st rfl).1

end Silent

section Erasure

open Phase (Beside Mem)

variable {L V F Sh α : Type}

/-- An event before an execution is not seen without the log. -/
theorem sim_record {e : Event} {a : Logging L V F Sh α} {a' : Phase.Exec L V F Sh α}
    (h : Sim Beside Eq a a') : Sim Beside Eq (record e >>= fun _ => a) a' := by
  rintro ⟨m, sh, log⟩ t related
  exact h (m, sh, log ++ [e]) t related

theorem sim_recordLast {f : α → Event} {a : Logging L V F Sh α} {a' : Phase.Exec L V F Sh Unit}
    (h : Sim Beside (fun _ _ => True) a a') :
    Sim Beside Eq (a >>= fun v => record (f v)) a' := by
  rintro s t related
  obtain ⟨results, states⟩ := h s t related
  rw [run_bind]
  rcases hrun : a.run s with ⟨r, s'⟩
  rcases hrun' : a'.run t with ⟨r', t'⟩
  rw [hrun, hrun'] at results states
  cases results with
  | ok _ => exact ⟨.ok rfl, states⟩
  | error e => exact ⟨.error e, states⟩

theorem sim_loggedTurns {push : Nat → Logging L V F Sh Unit} {push' : Nat → Phase.Exec L V F Sh Unit}
    {body : Nat → Logging L V F Sh Unit} {body' : Phase.Exec L V F Sh Unit}
    {condition : Logging L V F Sh Bool} {condition' : Phase.Exec L V F Sh Bool}
    (hpush : ∀ i, Sim Beside Eq (push i) (push' i)) (hbody : ∀ i, Sim Beside Eq (body i) body')
    (hcondition : Sim Beside Eq condition condition') (n i : Nat) (go : Bool) :
    Sim Beside (fun _ _ => True) (loggedTurns push body condition n i go)
      (Phase.turns push' body' condition' n i go) := by
  induction n generalizing i go with
  | zero =>
      cases go with
      | false => exact sim_pure trivial
      | true => exact sim_throw _
  | succ n ih =>
      cases go with
      | false => exact sim_pure trivial
      | true =>
          apply (hpush (i + 1)).bind
          rintro _ _ -
          apply (hbody i).bind
          rintro _ _ -
          apply hcondition.bind
          rintro go _ rfl
          exact ih (i + 1) go

theorem sim_loggedRepeats {body : Nat → Logging L V F Sh Unit} {body' : Phase.Exec L V F Sh Unit}
    (hbody : ∀ i, Sim Beside Eq (body i) body') (n i : Nat) :
    Sim Beside Eq (loggedRepeats body n i) (Phase.repeatTurns body' n) := by
  induction n generalizing i with
  | zero => exact sim_pure rfl
  | succ n ih =>
      apply (hbody i).bind
      rintro _ _ -
      exact ih (i + 1)

variable [Inhabited V] [DecidableEq L] {host : Phase.Host V F} {backend : Phase.Backend V F Sh}
  {rightFirst : List Phase.Expr → Bool}

theorem exec_simple_beside (n : Nat) {s : Stmt L} (simple : s.simple = true) :
    Sim Beside Eq
      (Phase.exec host (backend.beside : Phase.Backend V F (Sh × List Event)) rightFirst n s.toPhase)
      (Phase.exec host backend rightFirst n s.toPhase) := by
  cases s with
  | operation o name h args =>
      apply (Phase.sim_evaluated _).bind
      rintro _ _ -
      exact sim_pure rfl
  | assignment o target e =>
      cases target with
      | var x =>
          apply (Phase.sim_evaluated _).bind
          rintro v _ rfl
          exact Phase.sim_pushed x.var v
      | field label yield struct f =>
          apply (Phase.sim_ofAct_beside fun m => Phase.getVar_beside m struct.var).bind
          rintro strct _ rfl
          apply (Phase.sim_evaluated _).bind
          rintro v _ rfl
          exact Phase.sim_pushed struct.var _
  | ret o e =>
      apply (Phase.sim_evaluated _).bind
      rintro v _ rfl
      exact sim_throw _
  | accompanyWrite o target => exact Phase.sim_ofAct_beside fun m => rfl
  | writeTombstone o e => exact Phase.sim_ofAct_beside fun m => rfl
  | incrementOccurance o x => exact Phase.sim_change_beside fun m => rfl
  | incrementRemoteOccurance o x => exact Phase.sim_change_beside fun m => rfl
  | refreshRemoteOccurance o h =>
      apply (Phase.sim_ofAct_beside fun m => Phase.getVar_beside m h.var).bind
      rintro v _ rfl
      apply Phase.sim_change_beside
      intro m
      simp only [Mem.refresh, beside_bind, beside_pure]
      rfl
  | nil => exact sim_pure rfl
  | _ => simp [Stmt.simple] at simple

/-- Without the log, a phase does the same. -/
theorem logged_sim (n : Nat) (s : Stmt L) (turns : List Nat) :
    Sim Beside Eq (logged host backend rightFirst n s turns)
      (Phase.exec host backend rightFirst n s.toPhase) := by
  induction s generalizing turns with
  | letIn o b body ih =>
      apply sim_record
      apply (Phase.sim_evaluated _).bind
      rintro v _ rfl
      apply (Phase.sim_bound b.var v).bind
      rintro _ _ -
      exact ih turns
  | letRemote o b body ih =>
      apply sim_record
      apply (Phase.sim_evaluated _).bind
      rintro v _ rfl
      apply (Phase.sim_bound b.var v).bind
      rintro _ _ -
      exact ih turns
  | ifThen o c t e iht ihe =>
      apply (Phase.sim_evaluated _).bind
      rintro v _ rfl
      apply sim_record
      split
      · exact iht turns
      · exact ihe turns
  | whileLoop o name c body ih =>
      have condition : Sim Beside Eq
          (do
            let v ← Phase.Exec.ofAct fun m : Mem L V =>
              Phase.eval host (backend.beside : Phase.Backend V F (Sh × List Event)) rightFirst m
                (.varReference c.var)
            pure (host.truth v))
          (do
            let v ← Phase.Exec.ofAct fun m : Mem L V =>
              Phase.eval host backend rightFirst m (.varReference c.var)
            pure (host.truth v)) := by
        apply (Phase.sim_evaluated _).bind
        rintro v _ rfl
        exact sim_pure rfl
      apply (Phase.sim_bound name (host.ofInt 0)).bind
      rintro _ _ -
      apply condition.bind
      rintro go _ rfl
      apply sim_recordLast
      apply sim_loggedTurns
      · exact fun i => Phase.sim_pushed name (host.ofInt i)
      · exact fun i => ih (i :: turns)
      · exact condition
  | forEach o name body ih =>
      apply (Phase.sim_ofAct_beside fun m => Phase.getVar_beside m name).bind
      rintro bound _ rfl
      apply sim_record
      exact sim_loggedRepeats (fun i => ih (i :: turns)) _ 0
  | nil => exact sim_pure rfl
  | cons first rest ihf ihr =>
      apply (ihf turns).bind
      rintro _ _ -
      exact ihr turns
  | incrementOccurance o x => exact exec_simple_beside n rfl
  | incrementRemoteOccurance o x => exact exec_simple_beside n rfl
  | refreshRemoteOccurance o h => exact exec_simple_beside n rfl
  | _ => exact sim_record (exec_simple_beside n rfl)

end Erasure

end MixT.Split
