import MixT.Phase.Keeps

/-! # Phases over a larger state

A phase does the same where the shared state has more in it than the backend knows of. -/

namespace MixT.Phase

open Library Eff

variable {L V F Sh T : Type}

/-- The backend over a shared state with more in it. -/
def Backend.beside (backend : Backend V F Sh) : Backend V F (Sh × T) where
  get h := Eff.beside (backend.get h)
  put h v := Eff.beside (backend.put h v)
  isValid h := Eff.beside (backend.isValid h)
  createNew h v := Eff.beside (backend.createNew h v)
  act name h vs := Eff.beside (backend.act name h vs)
  readTracking h := Eff.beside (backend.readTracking h)
  accompanyWrite name v := Eff.beside (backend.accompanyWrite name v)
  writeTombstone v := Eff.beside (backend.writeTombstone v)
  generateTombstone := Eff.beside backend.generateTombstone
  listStub := Eff.beside backend.listStub
  ensureList v := Eff.beside (backend.ensureList v)
  pushBack lst v := Eff.beside (backend.pushBack lst v)

/-- The backend leaves alone what it does not know of. -/
theorem Backend.beside_keeps (backend : Backend V F Sh) (t : T) :
    (backend.beside : Backend V F (Sh × T)).Keeps (fun sh => sh.2 = t) fun _ => True := by
  have kept : ∀ {α : Type} (a : Act F Sh α), Eff.Keeps (fun sh : Sh × T => sh.2 = t)
      (fun _ => True) (Eff.beside a) := by
    rintro α a ⟨sh, _⟩ rfl
    exact ⟨rfl, fun _ _ => trivial⟩
  constructor <;> intros <;> exact kept _

section Eval

variable [Inhabited V] {host : Host V F} {backend : Backend V F Sh}
  {rightFirst : List Expr → Bool}

theorem getVar_beside (m : Mem L V) (x : VarName) :
    getVar host (backend.beside : Backend V F (Sh × T)) m x =
      Eff.beside (getVar host backend m x) := by
  unfold getVar
  split
  · rfl
  split
  · rfl
  split
  · rfl
  · rfl

mutual

theorem eval_beside (m : Mem L V) : (e : Expr) →
    eval host (backend.beside : Backend V F (Sh × T)) rightFirst m e =
      Eff.beside (eval host backend rightFirst m e)
  | .varReference x => by
      rw [eval, eval]
      exact getVar_beside m x
  | .fieldReference struct f => by
      rw [eval, eval, beside_bind, eval_beside m struct]
      rfl
  | .constant i => by
      rw [eval, eval]
      rfl
  | .binOp op l r => by
      have left := eval_beside m l
      have right := eval_beside m r
      cases op with
      | and =>
          rw [eval, eval, beside_bind, left]
          congr 1
          funext lval
          split
          · rw [beside_bind, right]
            rfl
          · rfl
      | or =>
          rw [eval, eval, beside_bind, left]
          congr 1
          funext lval
          split
          · rfl
          · rw [beside_bind, right]
            rfl
      | less =>
          rw [eval, eval, beside_bind, left]
          congr 1
          funext lval
          rw [beside_bind, right]
          rfl
      | _ =>
          rw [eval, eval]
          · split
            · rw [beside_bind, right]
              congr 1
              funext rval
              rw [beside_bind, left]
              rfl
            · rw [beside_bind, left]
              congr 1
              funext lval
              rw [beside_bind, right]
              rfl
          all_goals simp
  | .generateTombstone => by
      rw [eval, eval]
      rfl
  | .isValid h => by
      rw [eval, eval, beside_bind, eval_beside m h]
      rfl
  | .operation name h args => by
      have handle := eval_beside m h
      have left := evalArgs_beside m args
      have right := evalArgsRight_beside m args
      rw [eval, eval]
      split
      · rw [beside_bind, handle]
        congr 1
        funext lst
        rw [beside_bind]
        congr 1
        funext _
        rw [beside_bind, left]
        congr 1
        funext vs
        rw [beside_bind]
        rfl
      split
      · rw [beside_bind, handle]
        rfl
      rw [beside_bind, handle]
      congr 1
      funext hndl
      rw [beside_bind]
      congr 1
      · split
        · exact right
        · exact left
      · funext vs
        split <;> rfl

theorem evalArgs_beside (m : Mem L V) : (es : List Expr) →
    evalArgs host (backend.beside : Backend V F (Sh × T)) rightFirst m es =
      Eff.beside (evalArgs host backend rightFirst m es)
  | [] => by
      rw [evalArgs, evalArgs]
      rfl
  | e :: es => by
      rw [evalArgs, evalArgs, beside_bind, eval_beside m e]
      congr 1
      funext v
      rw [beside_bind, evalArgs_beside m es]
      rfl

theorem evalArgsRight_beside (m : Mem L V) : (es : List Expr) →
    evalArgsRight host (backend.beside : Backend V F (Sh × T)) rightFirst m es =
      Eff.beside (evalArgsRight host backend rightFirst m es)
  | [] => by
      rw [evalArgsRight, evalArgsRight]
      rfl
  | e :: es => by
      rw [evalArgsRight, evalArgsRight, beside_bind, evalArgsRight_beside m es]
      congr 1
      funext vs
      rw [beside_bind, eval_beside m e]
      rfl

end

end Eval

section Exec

variable {α : Type}

/-- The second state is the first without what the backend does not know of. -/
def Beside (s : Mem L V × Sh × T) (t : Mem L V × Sh) : Prop := s.1 = t.1 ∧ s.2.1 = t.2

theorem sim_ofAct_beside {a : Mem L V → Act F (Sh × T) α} {a' : Mem L V → Act F Sh α}
    (h : ∀ m, a m = Eff.beside (a' m)) : Sim Beside Eq (Exec.ofAct a) (Exec.ofAct a') := by
  rintro ⟨m, sh, t⟩ ⟨_, _⟩ ⟨rfl, rfl⟩
  simp only [Exec.ofAct, ExceptT.run_mk, h, run_beside]
  rcases (a' m).run sh with ⟨f | v, sh'⟩
  · exact ⟨.error _, rfl, rfl⟩
  · exact ⟨.ok rfl, rfl, rfl⟩

theorem sim_change_beside {a : Mem L V → Act F (Sh × T) (Mem L V)}
    {a' : Mem L V → Act F Sh (Mem L V)} (h : ∀ m, a m = Eff.beside (a' m)) :
    Sim Beside Eq (Exec.change a) (Exec.change a') := by
  rintro ⟨m, sh, t⟩ ⟨_, _⟩ ⟨rfl, rfl⟩
  simp only [Exec.change, ExceptT.run_mk, h, run_beside]
  rcases (a' m).run sh with ⟨f | m', sh'⟩
  · exact ⟨.error _, rfl, rfl⟩
  · exact ⟨.ok rfl, rfl, rfl⟩

variable [Inhabited V] {host : Host V F} {backend : Backend V F Sh}
  {rightFirst : List Expr → Bool}

theorem sim_evaluated (e : Expr) :
    Sim Beside Eq
      (Exec.ofAct fun m : Mem L V =>
        eval host (backend.beside : Backend V F (Sh × T)) rightFirst m e)
      (Exec.ofAct fun m => eval host backend rightFirst m e) :=
  sim_ofAct_beside fun m => eval_beside m e

variable [DecidableEq L]

theorem bind_beside (m : Mem L V) (x : VarName) (v : V) :
    m.bind host (backend.beside : Backend V F (Sh × T)) x v =
      Eff.beside (m.bind host backend x v) := by
  unfold Mem.bind
  split
  · rfl
  · rfl
  · simp only [beside_bind, beside_pure]
    rfl

theorem push_beside (m : Mem L V) (x : VarName) (v : V) :
    m.push host (backend.beside : Backend V F (Sh × T)) x v =
      Eff.beside (m.push host backend x v) := by
  unfold Mem.push
  split
  · rfl
  · rfl
  · simp only [beside_bind, beside_pure]
    rfl

theorem sim_bound (x : VarName) (v : V) :
    Sim Beside Eq
      (Exec.change fun m : Mem L V => m.bind host (backend.beside : Backend V F (Sh × T)) x v)
      (Exec.change fun m => m.bind host backend x v) :=
  sim_change_beside fun m => bind_beside m x v

theorem sim_pushed (x : VarName) (v : V) :
    Sim Beside Eq
      (Exec.change fun m : Mem L V => m.push host (backend.beside : Backend V F (Sh × T)) x v)
      (Exec.change fun m => m.push host backend x v) :=
  sim_change_beside fun m => push_beside m x v

end Exec

end MixT.Phase
