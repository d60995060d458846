import MixT.Phase.Run

/-! # What the actions of a backend keep, phases keep -/

namespace MixT.Phase

open Library Eff

variable {L V F Sh : Type} {I : Sh → Prop} {Q : F → Prop}

/-- Every action of the backend keeps `I` and fails with faults of `Q` only. -/
structure Backend.Keeps (backend : Backend V F Sh) (I : Sh → Prop) (Q : F → Prop) : Prop where
  get : ∀ h, Eff.Keeps I Q (backend.get h)
  put : ∀ h v, Eff.Keeps I Q (backend.put h v)
  isValid : ∀ h, Eff.Keeps I Q (backend.isValid h)
  createNew : ∀ h v, Eff.Keeps I Q (backend.createNew h v)
  act : ∀ name h vs, Eff.Keeps I Q (backend.act name h vs)
  readTracking : ∀ h, Eff.Keeps I Q (backend.readTracking h)
  accompanyWrite : ∀ name v, Eff.Keeps I Q (backend.accompanyWrite name v)
  writeTombstone : ∀ v, Eff.Keeps I Q (backend.writeTombstone v)
  generateTombstone : Eff.Keeps I Q backend.generateTombstone
  listStub : Eff.Keeps I Q backend.listStub
  ensureList : ∀ v, Eff.Keeps I Q (backend.ensureList v)
  pushBack : ∀ lst v, Eff.Keeps I Q (backend.pushBack lst v)

/-- The operators of the host fail with faults of `Q` only. -/
def Host.Fails (host : Host V F) (Q : F → Prop) : Prop :=
  ∀ op l r f, host.binOp op l r = .error f → Q f

section Eval

variable [Inhabited V] {host : Host V F} {backend : Backend V F Sh}
  {rightFirst : List Expr → Bool}

theorem getVar_keeps (kept : backend.Keeps I Q) (m : Mem L V) (x : VarName) :
    Keeps I Q (getVar host backend m x) := by
  unfold getVar
  split
  · exact keeps_pure _
  split
  · exact keeps_pure _
  split
  · exact kept.listStub
  · exact keeps_pure _

mutual

theorem eval_keeps (quiet : host.Fails Q) (kept : backend.Keeps I Q) (m : Mem L V) :
    (e : Expr) → Keeps I Q (eval host backend rightFirst m e)
  | .varReference x => by
      rw [eval]
      exact getVar_keeps kept m x
  | .fieldReference struct f => by
      rw [eval]
      exact (eval_keeps quiet kept m struct).bind fun _ => keeps_pure _
  | .constant i => by
      rw [eval]
      exact keeps_pure _
  | .binOp op l r => by
      have left := eval_keeps quiet kept m l
      have right := eval_keeps quiet kept m r
      cases op with
      | and =>
          rw [eval]
          refine left.bind fun lval => ?_
          split
          · exact right.bind fun _ => keeps_pure _
          · exact keeps_pure _
      | or =>
          rw [eval]
          refine left.bind fun lval => ?_
          split
          · exact keeps_pure _
          · exact right.bind fun _ => keeps_pure _
      | less =>
          rw [eval]
          exact left.bind fun _ => right.bind fun _ => keeps_ofExcept (quiet _ _ _)
      | _ =>
          rw [eval]
          · split
            · exact right.bind fun _ => left.bind fun _ => keeps_ofExcept (quiet _ _ _)
            · exact left.bind fun _ => right.bind fun _ => keeps_ofExcept (quiet _ _ _)
          all_goals simp
  | .generateTombstone => by
      rw [eval]
      exact kept.generateTombstone
  | .isValid h => by
      rw [eval]
      exact (eval_keeps quiet kept m h).bind kept.isValid
  | .operation name h args => by
      have handle := eval_keeps quiet kept m h
      have left := evalArgs_keeps quiet kept m args
      have right := evalArgsRight_keeps quiet kept m args
      rw [eval]
      split
      · refine handle.bind fun lst => (kept.ensureList lst).bind fun _ => left.bind fun vs => ?_
        exact (kept.pushBack lst _).bind fun _ => keeps_pure _
      split
      · exact handle.bind fun _ => keeps_pure _
      refine handle.bind fun hndl => Keeps.bind ?_ fun vs => ?_
      · split
        · exact right
        · exact left
      split
      · exact kept.createNew hndl _
      · exact kept.act name hndl vs

theorem evalArgs_keeps (quiet : host.Fails Q) (kept : backend.Keeps I Q) (m : Mem L V) :
    (es : List Expr) → Keeps I Q (evalArgs host backend rightFirst m es)
  | [] => by
      rw [evalArgs]
      exact keeps_pure _
  | e :: es => by
      rw [evalArgs]
      exact (eval_keeps quiet kept m e).bind fun _ =>
        (evalArgs_keeps quiet kept m es).bind fun _ => keeps_pure _

theorem evalArgsRight_keeps (quiet : host.Fails Q) (kept : backend.Keeps I Q) (m : Mem L V) :
    (es : List Expr) → Keeps I Q (evalArgsRight host backend rightFirst m es)
  | [] => by
      rw [evalArgsRight]
      exact keeps_pure _
  | e :: es => by
      rw [evalArgsRight]
      exact (evalArgsRight_keeps quiet kept m es).bind fun _ =>
        (eval_keeps quiet kept m e).bind fun _ => keeps_pure _

end

end Eval

/-- A fault that a statement ends with satisfies `Q`. -/
def Signal.Satisfies (Q : F → Prop) : Signal V F → Prop
  | .fault f => Q f
  | _ => True

section Exec

variable {α : Type}

theorem ofAct_keeps {a : Mem L V → Act F Sh α} (h : ∀ m, Keeps I Q (a m)) :
    Keeps (fun s : Mem L V × Sh => I s.2) (Signal.Satisfies Q) (Exec.ofAct a) := by
  intro s hs
  obtain ⟨after, errors⟩ := h s.1 s.2 hs
  rcases hrun : (a s.1).run s.2 with ⟨f | v, sh⟩ <;> rw [hrun] at after errors
  · simpa [Exec.ofAct, ExceptT.run_mk, hrun, Signal.Satisfies] using ⟨after, errors f rfl⟩
  · simpa [Exec.ofAct, ExceptT.run_mk, hrun] using after

theorem change_keeps {a : Mem L V → Act F Sh (Mem L V)} (h : ∀ m, Keeps I Q (a m)) :
    Keeps (fun s : Mem L V × Sh => I s.2) (Signal.Satisfies Q) (Exec.change a) := by
  intro s hs
  obtain ⟨after, errors⟩ := h s.1 s.2 hs
  rcases hrun : (a s.1).run s.2 with ⟨f | v, sh⟩ <;> rw [hrun] at after errors
  · simpa [Exec.change, ExceptT.run_mk, hrun, Signal.Satisfies] using ⟨after, errors f rfl⟩
  · simpa [Exec.change, ExceptT.run_mk, hrun] using after

variable {J : Mem L V × Sh → Prop} {P : Signal V F → Prop}

theorem turns_keeps {push : Nat → Exec L V F Sh Unit} {body : Exec L V F Sh Unit}
    {condition : Exec L V F Sh Bool} (hpush : ∀ i, Keeps J P (push i)) (hbody : Keeps J P body)
    (hcondition : Keeps J P condition) (turnsOut : P .outOfTurns) (n i : Nat) (go : Bool) :
    Keeps J P (turns push body condition n i go) := by
  induction n generalizing i go with
  | zero =>
      cases go with
      | false => exact keeps_pure _
      | true => exact keeps_throw turnsOut
  | succ n ih =>
      cases go with
      | false => exact keeps_pure _
      | true =>
          exact (hpush _).bind fun _ => hbody.bind fun _ => hcondition.bind fun go => ih _ go

theorem repeatTurns_keeps {body : Exec L V F Sh Unit} (hbody : Keeps J P body) (n : Nat) :
    Keeps J P (repeatTurns body n) := by
  induction n with
  | zero => exact keeps_pure _
  | succ n ih => exact hbody.bind fun _ => ih

variable [Inhabited V] [DecidableEq L] {host : Host V F} {backend : Backend V F Sh}
  {rightFirst : List Expr → Bool}

theorem bind_keeps (kept : backend.Keeps I Q) (m : Mem L V) (x : VarName) (v : V) :
    Keeps I Q (m.bind host backend x v) := by
  unfold Mem.bind
  split
  · exact keeps_pure _
  · exact keeps_pure _
  · exact (kept.get _).bind fun _ => (kept.readTracking _).bind fun _ => keeps_pure _

theorem push_keeps (kept : backend.Keeps I Q) (m : Mem L V) (x : VarName) (v : V) :
    Keeps I Q (m.push host backend x v) := by
  unfold Mem.push
  split
  · exact keeps_pure _
  · exact keeps_pure _
  · exact (kept.put _ _).bind fun _ => keeps_pure _

/-- A phase keeps what the backend's actions keep. -/
theorem exec_keeps (quiet : host.Fails Q) (kept : backend.Keeps I Q) (n : Nat) (s : Stmt L) :
    Keeps (fun state : Mem L V × Sh => I state.2) (Signal.Satisfies Q)
      (exec host backend rightFirst n s) := by
  have evaluated : ∀ e : Expr, Keeps (fun state : Mem L V × Sh => I state.2) (Signal.Satisfies Q)
      (Exec.ofAct fun m => eval host backend rightFirst m e) :=
    fun e => ofAct_keeps fun m => eval_keeps quiet kept m e
  have read : ∀ x, Keeps (fun state : Mem L V × Sh => I state.2) (Signal.Satisfies Q)
      (Exec.ofAct fun m => getVar host backend m x) :=
    fun x => ofAct_keeps fun m => getVar_keeps kept m x
  have bound : ∀ x v, Keeps (fun state : Mem L V × Sh => I state.2) (Signal.Satisfies Q)
      (Exec.change fun m => m.bind host backend x v) :=
    fun x v => change_keeps fun m => bind_keeps kept m x v
  have pushed : ∀ x v, Keeps (fun state : Mem L V × Sh => I state.2) (Signal.Satisfies Q)
      (Exec.change fun m => m.push host backend x v) :=
    fun x v => change_keeps fun m => push_keeps kept m x v
  induction s with
  | letIn x e body ih => exact (evaluated e).bind fun v => (bound x v).bind fun _ => ih
  | letRemote x h body ih => exact (evaluated h).bind fun v => (bound x v).bind fun _ => ih
  | operation name h args => exact (evaluated _).bind fun _ => keeps_pure _
  | assignVar x e => exact (evaluated e).bind fun v => pushed x v
  | assignField x f e => exact (read x).bind fun strct => (evaluated e).bind fun v => pushed x _
  | ret e => exact (evaluated e).bind fun v => keeps_throw trivial
  | accompanyWrite x => exact ofAct_keeps fun m => kept.accompanyWrite _ _
  | writeTombstone x => exact ofAct_keeps fun m => kept.writeTombstone _
  | incrementOccurance x => exact change_keeps fun m => keeps_pure _
  | incrementRemoteOccurance x => exact change_keeps fun m => keeps_pure _
  | refreshRemoteOccurance t x =>
      exact (read x).bind fun h => change_keeps fun m => (kept.get h).bind fun _ => keeps_pure _
  | ifThen c t e iht ihe =>
      refine (evaluated c).bind fun v => ?_
      split
      · exact iht
      · exact ihe
  | whileLoop name c body ih =>
      have condition := (evaluated c).bind fun v => keeps_pure (host.truth v)
      exact (bound name _).bind fun _ => condition.bind fun go =>
        turns_keeps (fun i => pushed name _) ih condition trivial n 0 go
  | forEach name body ih => exact (read name).bind fun v => repeatTurns_keeps ih _
  | nil => exact keeps_pure _
  | cons first rest ihf ihr => exact ihf.bind fun _ => ihr

end Exec

end MixT.Phase
