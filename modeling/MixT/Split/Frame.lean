import MixT.Phase.Keeps
import MixT.Split.Running

/-! # What a phase leaves alone

A phase changes the holders of the variables that it binds, assigns or steps over, and no
others. -/

namespace MixT.Split

open Library Eff

namespace Stmt

variable {L : Type*}

/-- The variables that a phase binds, assigns or steps over. -/
def writes : Stmt L → List VarName
  | .letIn _ b body => b.var :: writes body
  | .letRemote _ b body => b.var :: writes body
  | .assignment _ target _ => [target.baseVar]
  | .incrementOccurance _ x => [x]
  | .incrementRemoteOccurance _ x => [x]
  | .ifThen _ _ t e => writes t ++ writes e
  | .whileLoop _ name _ body => name :: writes body
  | .forEach _ _ body => writes body
  | .cons first rest => writes first ++ writes rest
  | _ => []

end Stmt

section Frame

variable {L V F Sh : Type} [Inhabited V] [DecidableEq L] {host : Phase.Host V F}
  {backend : Phase.Backend V F Sh} {rightFirst : List Phase.Expr → Bool}

open Phase (Mem)

/-- The variable has this holder. -/
def HolderIs (y : VarName) (g : Phase.Holder L V) (st : Mem L V × Sh) : Prop :=
  st.1.holders y = g

variable {m : Mem L V} {x y : VarName} {g : Phase.Holder L V} {sh : Sh}

omit [Inhabited V] [DecidableEq L] in
theorem keeps_ofAct {α : Type} (a : Mem L V → Phase.Act F Sh α) :
    Keeps (HolderIs y g) (fun _ => True) (Phase.Exec.ofAct a) := by
  intro st hst
  rcases hrun : (a st.1).run st.2 with ⟨f | v, sh⟩
  · simp only [Phase.Exec.ofAct, ExceptT.run_mk, hrun]
    exact ⟨hst, fun _ _ => trivial⟩
  · simp only [Phase.Exec.ofAct, ExceptT.run_mk, hrun]
    exact ⟨hst, fun _ _ => trivial⟩

omit [Inhabited V] [DecidableEq L] in
theorem keeps_change {a : Mem L V → Phase.Act F Sh (Mem L V)}
    (h : ∀ m sh, m.holders y = g → wlp (a m) (fun m' _ => m'.holders y = g) sh) :
    Keeps (HolderIs y g) (fun _ => True) (Phase.Exec.change a) := by
  intro st hst
  rcases hrun : (a st.1).run st.2 with ⟨f | m, sh⟩
  · simp only [Phase.Exec.change, ExceptT.run_mk, hrun]
    exact ⟨hst, fun _ _ => trivial⟩
  · simp only [Phase.Exec.change, ExceptT.run_mk, hrun]
    exact ⟨h st.1 st.2 hst m sh hrun, fun _ _ => trivial⟩

theorem bind_frame (other : y ≠ x) (v : V) (h : m.holders y = g) :
    wlp (m.bind host backend x v) (fun m' _ => m'.holders y = g) sh := by
  unfold Mem.bind
  cases m.holders x with
  | remote handleType handle currPos =>
      simp only [wlp_bind]
      intro o sh₁ _
      rw [wlp_bind]
      intro _ sh₂ _
      rw [wlp_pure]
      simpa [Mem.setHolder, Mem.setSuper, other] using h
  | _ =>
      rw [wlp_pure]
      simpa [Mem.setHolder, other] using h

theorem push_frame (other : y ≠ x) (v : V) (h : m.holders y = g) :
    wlp (m.push host backend x v) (fun m' _ => m'.holders y = g) sh := by
  unfold Mem.push
  cases m.holders x with
  | remote handleType handle currPos =>
      simp only [wlp_bind]
      intro _ sh₁ _
      rw [wlp_pure]
      exact h
  | _ =>
      rw [wlp_pure]
      simpa [Mem.setHolder, other] using h

omit [Inhabited V] in
theorem refresh_frame (handleType : Ty L) (v : V) (h : m.holders y = g) :
    wlp (m.refresh host backend handleType v) (fun m' _ => m'.holders y = g) sh := by
  unfold Mem.refresh
  rw [wlp_bind]
  intro o sh₁ _
  rw [wlp_pure]
  exact h

theorem increment_frame (other : y ≠ x) : (m.increment host x).holders y = m.holders y := by
  unfold Mem.increment
  cases m.holders x with
  | value t => rfl
  | type h => simp [Mem.setHolder, other]
  | remote handleType handle currPos =>
      dsimp only
      split <;> rfl

theorem incrementRemote_frame (other : y ≠ x) :
    (m.incrementRemote host x).holders y = m.holders y := by
  unfold Mem.incrementRemote
  cases m.holders x with
  | remote handleType handle currPos =>
      dsimp only
      rw [increment_frame other]
      simp [Mem.setHolder, other]
  | _ => rfl

/-- A phase leaves alone what it neither binds nor assigns nor steps over. -/
theorem exec_frame (n : Nat) {s : Stmt L} (unwritten : y ∉ s.writes) :
    Keeps (HolderIs y g) (fun _ => True)
      (Phase.exec host backend rightFirst n s.toPhase) := by
  have bound : ∀ {x : VarName}, y ≠ x → ∀ v, Keeps (HolderIs y g)
      (fun _ => True) (Phase.Exec.change fun m => m.bind host backend x v) := by
    intro x other v
    exact keeps_change fun m sh h => bind_frame other v h
  have pushed : ∀ {x : VarName}, y ≠ x → ∀ v, Keeps (HolderIs y g)
      (fun _ => True) (Phase.Exec.change fun m => m.push host backend x v) := by
    intro x other v
    exact keeps_change fun m sh h => push_frame other v h
  induction s with
  | letIn o b body ih =>
      simp only [Stmt.writes, List.mem_cons, not_or] at unwritten
      exact (keeps_ofAct _).bind fun v => (bound unwritten.1 v).bind fun _ => ih unwritten.2
  | letRemote o b body ih =>
      simp only [Stmt.writes, List.mem_cons, not_or] at unwritten
      exact (keeps_ofAct _).bind fun v => (bound unwritten.1 v).bind fun _ => ih unwritten.2
  | operation o name h args => exact (keeps_ofAct _).bind fun _ => keeps_pure _
  | assignment o target e =>
      simp only [Stmt.writes, List.mem_singleton] at unwritten
      cases target with
      | var x => exact (keeps_ofAct _).bind fun v => pushed unwritten v
      | field label yield struct f =>
          exact (keeps_ofAct _).bind fun strct => (keeps_ofAct _).bind fun v => pushed unwritten _
  | ret o e => exact (keeps_ofAct _).bind fun v => keeps_throw trivial
  | accompanyWrite o target => exact keeps_ofAct _
  | writeTombstone o e => exact keeps_ofAct _
  | incrementOccurance o x =>
      simp only [Stmt.writes, List.mem_singleton] at unwritten
      refine keeps_change fun m sh h => ?_
      rw [wlp_pure, increment_frame unwritten]
      exact h
  | incrementRemoteOccurance o x =>
      simp only [Stmt.writes, List.mem_singleton] at unwritten
      refine keeps_change fun m sh h => ?_
      rw [wlp_pure, incrementRemote_frame unwritten]
      exact h
  | refreshRemoteOccurance o h =>
      exact (keeps_ofAct _).bind fun v => keeps_change fun m sh same => refresh_frame h.yield v same
  | ifThen o c t e iht ihe =>
      simp only [Stmt.writes, List.mem_append, not_or] at unwritten
      refine (keeps_ofAct _).bind fun v => ?_
      split
      · exact iht unwritten.1
      · exact ihe unwritten.2
  | whileLoop o name c body ih =>
      simp only [Stmt.writes, List.mem_cons, not_or] at unwritten
      have condition : Keeps (HolderIs y g) (fun _ => True) (do
          let v ← Phase.Exec.ofAct fun m : Mem L V =>
            Phase.eval host backend rightFirst m (.varReference c.var)
          pure (host.truth v)) := (keeps_ofAct _).bind fun v => keeps_pure (host.truth v)
      exact (bound unwritten.1 _).bind fun _ => condition.bind fun go =>
        Phase.turns_keeps (fun i => pushed unwritten.1 _) (ih unwritten.2) condition trivial n 0 go
  | forEach o name body ih =>
      exact (keeps_ofAct _).bind fun v => Phase.repeatTurns_keeps (ih unwritten) _
  | nil => exact keeps_pure _
  | cons first rest ihf ihr =>
      simp only [Stmt.writes, List.mem_append, not_or] at unwritten
      exact (ihf unwritten.1).bind fun _ => ihr unwritten.2


end Frame

end MixT.Split
