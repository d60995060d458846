import Mathlib.Data.List.Flatten
import MixT.Split.Iterations
import MixT.Split.Outline

/-! # Each statement is done once, in the phase of its label

Given the outcomes of its conditions, a transaction does each statement that the program comes
to exactly once, in the phase of its label, and those of one label in the order of the
program. -/

namespace MixT.Split

open Library Eff
open Phase (Mem)

section Explained

/-- A statement that is done, or returned from. -/
def Event.isEffect : Event → Bool
  | .did _ => true
  | .returned _ => true
  | _ => false

def effects (log : List Event) : List Event := log.filter Event.isEffect

theorem effects_append (log log' : List Event) : effects (log ++ log') = effects log ++ effects log' :=
  List.filter_append log log'

/-- What comes before the first return, and the return. -/
def upToReturn : List Event → List Event
  | [] => []
  | .returned p :: _ => [.returned p]
  | e :: rest => e :: upToReturn rest

def NoReturn (xs : List Event) : Prop := ∀ p, .returned p ∉ xs

theorem noReturn_nil : NoReturn [] := fun _ mem => by cases mem

theorem noReturn_append {xs ys : List Event} : NoReturn (xs ++ ys) ↔ NoReturn xs ∧ NoReturn ys := by
  simp only [NoReturn, List.mem_append, not_or, forall_and]

theorem NoReturn.upToReturn_append {xs : List Event} (none : NoReturn xs) (ys : List Event) :
    upToReturn (xs ++ ys) = xs ++ upToReturn ys := by
  induction xs with
  | nil => rfl
  | cons e xs ih =>
      have rest := ih fun p mem => none p (List.mem_cons_of_mem _ mem)
      cases e with
      | returned p => exact absurd List.mem_cons_self (none p)
      | _ => exact congrArg _ rest

theorem upToReturn_append {xs : List Event} (some : ¬ NoReturn xs) (ys : List Event) :
    upToReturn (xs ++ ys) = upToReturn xs := by
  induction xs with
  | nil => exact absurd noReturn_nil some
  | cons e xs ih =>
      cases e with
      | returned p => rfl
      | _ =>
          simp only [List.cons_append, upToReturn, List.cons.injEq, true_and]
          exact ih fun none => some fun p mem => none p (by simpa using mem)

theorem NoReturn.upToReturn {xs : List Event} (none : NoReturn xs) : upToReturn xs = xs := by
  simpa [MixT.Split.upToReturn] using none.upToReturn_append []

theorem upToReturn_sublist (xs : List Event) : (upToReturn xs).Sublist xs := by
  induction xs with
  | nil => exact List.nil_sublist _
  | cons e xs ih =>
      cases e with
      | returned p => exact (List.nil_sublist xs).cons_cons _
      | _ => exact ih.cons_cons _

namespace Outcomes

variable (ω : Outcomes)

/-- The condition came out so. -/
def explains : Event → Prop
  | .branched p taken => ω.branch p = taken
  | .evaluated p _ c => ω.turns p = c
  | .replayed p _ c => ω.turns p = c
  | _ => True

instance (e : Event) : Decidable (ω.explains e) := by
  cases e <;> unfold explains <;> infer_instance

/-- All phases found the conditions to come out so. -/
def Explains (log : List Event) : Prop := ∀ e ∈ log, ω.explains e

variable {ω}

instance (log : List Event) : Decidable (ω.Explains log) :=
  inferInstanceAs (Decidable (∀ e ∈ log, ω.explains e))

theorem explains_append {log log' : List Event} :
    ω.Explains (log ++ log') ↔ ω.Explains log ∧ ω.Explains log' := by
  simp only [Explains, List.mem_append, or_imp, forall_and]

end Outcomes

end Explained

section ComesTo

variable {L V F Sh α β : Type} {ω : Outcomes} {allowed : Bool} {xs ys : List Event}

/-- What was added to a log has these effects and no return, where the outcomes explain it. -/
def Added (ω : Outcomes) (xs : List Event) (log log' : List Event) : Prop :=
  ∃ here, log' = log ++ here ∧ (ω.Explains here → effects here = xs ∧ NoReturn xs)

/-- What was added to a log are the effects up to a return. -/
def AddedUpToReturn (ω : Outcomes) (xs : List Event) (log log' : List Event) : Prop :=
  ∃ here, log' = log ++ here ∧ (ω.Explains here → effects here = upToReturn xs ∧ ¬ NoReturn xs)

/-- The execution comes to these effects. It may return where it is allowed to, after a part
of them. -/
def ComesTo (ω : Outcomes) (allowed : Bool) (xs : List Event) (a : Logging L V F Sh α) : Prop :=
  ∀ st, wp a (fun _ st' => Added ω xs st.2.2 st'.2.2)
    (fun e st' => ∀ v, e = .returned v → allowed = true ∧ AddedUpToReturn ω xs st.2.2 st'.2.2) st

theorem Added.trans {log log' log'' : List Event} (first : Added ω xs log log')
    (second : Added ω ys log' log'') : Added ω (xs ++ ys) log log'' := by
  obtain ⟨here, rfl, effect⟩ := first
  obtain ⟨here', rfl, effect'⟩ := second
  refine ⟨here ++ here', List.append_assoc _ _ _, fun explained => ?_⟩
  obtain ⟨h, h'⟩ := Outcomes.explains_append.mp explained
  obtain ⟨same, none⟩ := effect h
  obtain ⟨same', none'⟩ := effect' h'
  exact ⟨by rw [effects_append, same, same'], noReturn_append.mpr ⟨none, none'⟩⟩

theorem Added.upToReturn {log log' log'' : List Event} (first : Added ω xs log log')
    (second : AddedUpToReturn ω ys log' log'') : AddedUpToReturn ω (xs ++ ys) log log'' := by
  obtain ⟨here, rfl, effect⟩ := first
  obtain ⟨here', rfl, effect'⟩ := second
  refine ⟨here ++ here', List.append_assoc _ _ _, fun explained => ?_⟩
  obtain ⟨h, h'⟩ := Outcomes.explains_append.mp explained
  obtain ⟨same, none⟩ := effect h
  obtain ⟨same', some⟩ := effect' h'
  refine ⟨?_, fun both => some (noReturn_append.mp both).2⟩
  rw [effects_append, same, same', none.upToReturn_append]

theorem AddedUpToReturn.more {log log' : List Event} (h : AddedUpToReturn ω xs log log')
    (ys : List Event) : AddedUpToReturn ω (xs ++ ys) log log' := by
  obtain ⟨here, added, effect⟩ := h
  refine ⟨here, added, fun explained => ?_⟩
  obtain ⟨same, some⟩ := effect explained
  exact ⟨same.trans (upToReturn_append some ys).symm,
    fun both => some (noReturn_append.mp both).1⟩

theorem comesTo_pure (v : α) : ComesTo ω allowed [] (pure v : Logging L V F Sh α) :=
  fun _ => ⟨[], (List.append_nil _).symm, fun _ => ⟨rfl, noReturn_nil⟩⟩

theorem ComesTo.bind {a : Logging L V F Sh α} {f : α → Logging L V F Sh β}
    (ha : ComesTo ω allowed xs a) (hf : ∀ v, ComesTo ω allowed ys (f v)) :
    ComesTo ω allowed (xs ++ ys) (a >>= f) := by
  intro st
  rw [wp_bind]
  refine (ha st).mono ?_ ?_
  · intro v st' first
    refine (hf v st').mono (fun w st'' => first.trans) ?_
    intro e st'' failed w returned
    obtain ⟨may, second⟩ := failed w returned
    exact ⟨may, first.upToReturn second⟩
  · intro e st' failed v returned
    obtain ⟨may, first⟩ := failed v returned
    exact ⟨may, first.more ys⟩

theorem Silent.comesTo {a : Logging L V F Sh α} (silent : Silent false a) :
    ComesTo ω allowed [] a := by
  intro st
  have log := silent.log st
  have returns := silent.returns st
  unfold wp
  split
  · rename_i v st' hrun
    rw [hrun] at log
    exact ⟨[], by simpa using log, fun _ => ⟨rfl, noReturn_nil⟩⟩
  · rename_i e st' hrun
    rw [hrun] at returns
    rintro v rfl
    exact absurd (returns v rfl) Bool.false_ne_true

theorem Silent.bindComesTo {a : Logging L V F Sh α} {f : α → Logging L V F Sh β}
    (silent : Silent false a) (hf : ∀ v, ComesTo ω allowed ys (f v)) :
    ComesTo ω allowed ys (a >>= f) :=
  silent.comesTo.bind hf

theorem ComesTo.guarded {a : Logging L V F Sh α} (ha : ComesTo ω false xs a) :
    ComesTo ω allowed xs a := by
  intro st
  refine (ha st).mono (fun _ _ h => h) ?_
  intro e st' failed v returned
  exact absurd (failed v returned).1 Bool.false_ne_true

theorem comesTo_did {p : Point} {a : Logging L V F Sh α} (ha : ComesTo ω allowed ys a) :
    ComesTo ω allowed (.did p :: ys) (record (.did p) >>= fun _ => a) := by
  have one : ComesTo ω allowed [.did p] (record (.did p) : Logging L V F Sh Unit) :=
    fun _ => ⟨[.did p], rfl, fun _ => ⟨rfl, fun q mem => by simp at mem⟩⟩
  exact one.bind fun _ => ha

/-- An event that is no effect tells something of the outcomes. -/
theorem comesTo_record {e : Event} (other : e.isEffect = false) {a : Logging L V F Sh α}
    (ha : ComesTo ω allowed ys a) (same : ω.explains e → ys = xs) :
    ComesTo ω allowed xs (record e >>= fun _ => a) := by
  intro st
  have skipped : ∀ here, effects (e :: here) = effects here := by
    intro here
    simp [effects, other]
  have parts : ∀ {here}, ω.Explains (e :: here) → ys = xs ∧ ω.Explains here := fun explained =>
    ⟨same (explained e List.mem_cons_self), fun x hx => explained x (List.mem_cons_of_mem _ hx)⟩
  refine (ha (st.1, st.2.1, st.2.2 ++ [e])).mono ?_ ?_
  · rintro v st' ⟨here, added, effect⟩
    refine ⟨e :: here, by simpa using added, fun explained => ?_⟩
    obtain ⟨rfl, explained⟩ := parts explained
    rw [skipped]
    exact effect explained
  · intro signal st' failed v returned
    obtain ⟨may, here, added, effect⟩ := failed v returned
    refine ⟨may, e :: here, by simpa using added, fun explained => ?_⟩
    obtain ⟨rfl, explained⟩ := parts explained
    rw [skipped]
    exact effect explained

theorem comesTo_return {p : Point} {a : Logging L V F Sh Unit} (silent : Silent allowed a)
    (throws : ∀ st, (a.run st).1 ≠ .ok ()) :
    ComesTo ω allowed [.returned p] (record (.returned p) >>= fun _ => a) := by
  intro st
  have log := silent.log (st.1, st.2.1, st.2.2 ++ [.returned p])
  have returns := silent.returns (st.1, st.2.1, st.2.2 ++ [.returned p])
  change wp a _ _ (st.1, st.2.1, st.2.2 ++ [.returned p])
  unfold wp
  split
  · rename_i v st' hrun
    exact absurd (congrArg Prod.fst hrun) (throws _)
  · rename_i e st' hrun
    rw [hrun] at log returns
    rintro v rfl
    exact ⟨returns v rfl, [.returned p], log, fun _ =>
      ⟨rfl, fun none => none p (List.mem_singleton_self _)⟩⟩

section Loops

variable {body : Nat → Logging L V F Sh Unit} {turn : Nat → List Event}

theorem loggedRepeats_comesTo (hbody : ∀ i, ComesTo ω false (turn i) (body i)) (n i : Nat) :
    ComesTo ω false ((List.range' i n).flatMap turn) (loggedRepeats body n i) := by
  induction n generalizing i with
  | zero => exact comesTo_pure ()
  | succ n ih =>
      rw [List.range'_succ, List.flatMap_cons]
      exact (hbody i).bind fun _ => ih (i + 1)

/-- The turns of a loop come to what their number says. -/
theorem loggedTurns_comesTo {push : Nat → Logging L V F Sh Unit}
    {condition : Logging L V F Sh Bool} (hpush : ∀ i, Silent false (push i))
    (hbody : ∀ i, ComesTo ω false (turn i) (body i)) (hcondition : Silent false condition)
    (n i : Nat) (go : Bool) (st : Mem L V × Sh × List Event) :
    wp (loggedTurns push body condition n i go)
      (fun c st' => ∃ m, c = i + m ∧ Added ω ((List.range' i m).flatMap turn) st.2.2 st'.2.2)
      (fun e _ => ∀ v, e ≠ .returned v) st := by
  induction n generalizing i go st with
  | zero =>
      cases go with
      | false => exact ⟨0, rfl, [], by simp, fun _ => ⟨rfl, noReturn_nil⟩⟩
      | true => exact fun _ returned => by cases returned
  | succ n ih =>
      cases go with
      | false => exact ⟨0, rfl, [], by simp, fun _ => ⟨rfl, noReturn_nil⟩⟩
      | true =>
          have one : ComesTo ω false (turn i) (do push (i + 1); body i; condition) := by
            have tested : ComesTo ω false [] condition := hcondition.comesTo
            simpa using (hpush (i + 1)).comesTo.bind fun _ => (hbody i).bind fun _ => tested
          have step : loggedTurns push body condition (n + 1) i true =
              (do push (i + 1); body i; condition) >>=
                fun go => loggedTurns push body condition n (i + 1) go := by
            simp [loggedTurns]
          rw [step, wp_bind]
          refine (one st).mono ?_ ?_
          · intro go st' first
            refine (ih (i + 1) go st').mono ?_ fun _ _ h => h
            rintro c st'' ⟨m, rfl, rest⟩
            refine ⟨m + 1, by omega, ?_⟩
            rw [List.range'_succ, List.flatMap_cons]
            exact first.trans rest
          · intro e st' failed v returned
            exact absurd (failed v returned).1 Bool.false_ne_true

end Loops

variable [Inhabited V] [DecidableEq L] {host : Phase.Host V F} {backend : Phase.Backend V F Sh}
  {rightFirst : List Phase.Expr → Bool}

theorem logged_while_comesTo (n : Nat) {o : Origin} {name : VarName} {c : VarRef Unit L}
    {body : Stmt L} {turns : List Nat}
    (hbody : ∀ turns, ComesTo ω false (body.outline ω turns)
      (logged host backend rightFirst n body turns)) :
    ComesTo ω allowed ((Stmt.whileLoop o name c body).outline ω turns)
      (logged host backend rightFirst n (.whileLoop o name c body) turns) := by
  have condition : Silent false (do
      let v ← Phase.Exec.ofAct fun m : Mem L V => Phase.eval host
        (backend.beside : Phase.Backend V F (Sh × List Event)) rightFirst m (.varReference c.var)
      pure (host.truth v)) := (silent_eval _).bind fun v => silent_pure (host.truth v)
  have push : ∀ i : Nat, Silent false (Phase.Exec.change fun m : Mem L V =>
      m.push host (backend.beside : Phase.Backend V F (Sh × List Event)) name (host.ofInt i)) :=
    fun i => silent_push name (host.ofInt i)
  refine (silent_bind name (host.ofInt 0)).bindComesTo fun _ => condition.bindComesTo fun go => ?_
  intro st
  have looped := loggedTurns_comesTo push (fun i => hbody (i :: turns)) condition n 0 go st
  rw [wp_bind]
  refine looped.mono ?_ fun e _ other v returned => absurd returned (other v)
  rintro c st' ⟨m, rfl, here, added, effect⟩
  refine ⟨here ++ [.evaluated ⟨o, turns⟩ name (0 + m)], ?_, fun explained => ?_⟩
  · change st'.2.2 ++ _ = _
    rw [added, List.append_assoc]
  · obtain ⟨explained, last⟩ := Outcomes.explains_append.mp explained
    have count : ω.turns ⟨o, turns⟩ = 0 + m := last _ (List.mem_singleton_self _)
    obtain ⟨same, none⟩ := effect explained
    have turned : (Stmt.whileLoop o name c body).outline ω turns =
        (List.range' 0 m).flatMap fun i => body.outline ω (i :: turns) := by
      rw [Stmt.outline, count, Nat.zero_add, List.range_eq_range']
    rw [turned, effects_append, same]
    exact ⟨List.append_nil _, none⟩

/-- A return does not get to its end. -/
theorem exec_ret_throws {backend : Phase.Backend V F Sh} (n : Nat) {o : Origin}
    {e : VarRef Unit L} (st : Mem L V × Sh) :
    ((Phase.exec host backend rightFirst n (Stmt.ret o e).toPhase).run st).1 ≠ .ok () := by
  change ((Phase.Exec.ofAct _ >>= fun v => throw (.returned v) :
    Phase.Exec L V F Sh Unit).run st).1 ≠ .ok ()
  rw [run_bind]
  split
  · exact fun same => by cases same
  · exact fun same => by cases same

/-- A phase comes to its outline. -/
theorem logged_comesTo {d : Nat} (n : Nat) {s : Stmt L} (named : s.Counts d allowed)
    (turns : List Nat) :
    ComesTo ω allowed (s.outline ω turns) (logged host backend rightFirst n s turns) := by
  induction s generalizing d allowed turns with
  | letIn o b body ih =>
      exact comesTo_did ((silent_eval _).bindComesTo fun v =>
        (silent_bind b.var v).bindComesTo fun _ => ih named.2 turns)
  | letRemote o b body ih =>
      exact comesTo_did ((silent_eval _).bindComesTo fun v =>
        (silent_bind b.var v).bindComesTo fun _ => ih named.2 turns)
  | ret o e =>
      exact comesTo_return (silent_exec n rfl fun _ _ _ => named) (exec_ret_throws n)
  | ifThen o c t e iht ihe =>
      refine (silent_eval _).bindComesTo fun v => ?_
      have taken : ComesTo ω allowed
          (if host.truth v then t.outline ω turns else e.outline ω turns)
          (if host.truth v then logged host backend rightFirst n t turns
            else logged host backend rightFirst n e turns) := by
        split
        · exact (iht named.1 turns).guarded
        · exact (ihe named.2 turns).guarded
      refine comesTo_record rfl taken fun branch => ?_
      rw [Stmt.outline, show ω.branch ⟨o, turns⟩ = host.truth v from branch]
  | whileLoop o name c body ih =>
      obtain ⟨e, -, -, named⟩ := named
      exact logged_while_comesTo n fun turns => ih named turns
  | forEach o name body ih =>
      obtain ⟨e, -, -, named⟩ := named
      refine (silent_ofAct fun m log => ?_).bindComesTo fun bound => ?_
      · exact Phase.getVar_keeps (backend.beside_keeps log) m name
      refine comesTo_record rfl
        (loggedRepeats_comesTo (fun i => ih named (i :: turns)) (host.count bound) 0).guarded
        fun count => ?_
      rw [Stmt.outline, show ω.turns ⟨o, turns⟩ = host.count bound from count, List.range_eq_range']
  | nil => exact comesTo_pure ()
  | cons first rest ihf ihr => exact (ihf named.1 turns).bind fun _ => ihr named.2 turns
  | operation o name h args =>
      exact comesTo_did (silent_exec n rfl (by simp)).comesTo
  | assignment o target e =>
      exact comesTo_did (silent_exec n rfl (by simp)).comesTo
  | accompanyWrite o target =>
      exact comesTo_did (silent_exec n rfl (by simp)).comesTo
  | writeTombstone o e =>
      exact comesTo_did (silent_exec n rfl (by simp)).comesTo
  | incrementOccurance o x => exact (silent_exec n rfl (by simp)).comesTo
  | incrementRemoteOccurance o x => exact (silent_exec n rfl (by simp)).comesTo
  | refreshRemoteOccurance o h => exact (silent_exec n rfl (by simp)).comesTo

end ComesTo

section Runs

variable {L V F Sh : Type} [Inhabited V] [DecidableEq L] (host : Phase.Host V F)
  (backend : Phase.Backend V F Sh) (rightFirst : List Phase.Expr → Bool) (n : Nat)

/-- Runs of all phases, where each attempt commits. -/
inductive Finishes : List (Stmt L) → Mem L V → List Event → List Event → Prop
  | done {m : Mem L V} {log : List Event} : Finishes [] m log log
  | next {s : Stmt L} {phases : List (Stmt L)} {m : Mem L V} {log log' : List Event} (sh : Sh) :
      completes (attempt host backend rightFirst n s m sh log).1 = true →
      Finishes phases (attempt host backend rightFirst n s m sh log).2.1
        (attempt host backend rightFirst n s m sh log).2.2.2 log' →
      Finishes (s :: phases) m log log'

variable {host backend rightFirst n} {ω : Outcomes}

/-- An attempt that commits comes to the outline of its phase, up to a return. -/
theorem attempt_effects {d : Nat} {s : Stmt L} (named : s.Counts d true) {m : Mem L V} {sh : Sh}
    {log : List Event}
    (completes : completes (attempt host backend rightFirst n s m sh log).1 = true) :
    ∃ here, (attempt host backend rightFirst n s m sh log).2.2.2 = log ++ here ∧
      (ω.Explains here → effects here = upToReturn (s.outline ω [])) := by
  have outlined : ComesTo ω true (s.outline ω []) (logged host backend rightFirst n s []) :=
    logged_comesTo n named []
  have added := outlined (m.beginPhase, sh, log)
  unfold attempt at completes ⊢
  unfold wp at added
  split at added
  · rename_i v st' hrun
    rw [hrun]
    obtain ⟨here, same, effect⟩ := added
    refine ⟨here, same, fun explained => ?_⟩
    obtain ⟨effects, none⟩ := effect explained
    rw [effects, none.upToReturn]
  · rename_i e st' hrun
    rw [hrun] at completes ⊢
    cases e with
    | returned v =>
        obtain ⟨here, same, effect⟩ := (added v rfl).2
        exact ⟨here, same, fun explained => (effect explained).1⟩
    | fault f => cases completes
    | outOfTurns => cases completes

/-- A run comes to the outlines of its phases, each up to a return. -/
theorem Finishes.effects {d : Nat} {phases : List (Stmt L)} (named : ∀ s ∈ phases, s.Counts d true)
    {m : Mem L V} {log log' : List Event}
    (finishes : Finishes host backend rightFirst n phases m log log') :
    ∃ here, log' = log ++ here ∧ (ω.Explains here →
      effects here = phases.flatMap fun s => upToReturn (s.outline ω [])) := by
  induction finishes with
  | done => exact ⟨[], (List.append_nil _).symm, fun _ => rfl⟩
  | next sh completes _ ih =>
      obtain ⟨here, added, effect⟩ :=
        attempt_effects (ω := ω) (named _ List.mem_cons_self) completes
      obtain ⟨later, added', effect'⟩ := ih fun s hs => named s (List.mem_cons_of_mem _ hs)
      refine ⟨here ++ later, by rw [added', added, List.append_assoc], fun explained => ?_⟩
      obtain ⟨h, h'⟩ := Outcomes.explains_append.mp explained
      rw [effects_append, effect h, effect' h', List.flatMap_cons]

end Runs

section FourLabels

open Inference (FourLabels strong)

/-- `var c = true, while (c) { h.incr(), c = false }`. -/
def singleLoop : Parsed.Stmt FourLabels :=
  varTrue cName (flagged outerFlag cName
    (.cons (.operation incr hName [])
      (.cons (.assignment (.var cName) Builtin.falseName) .nil)))

/-- The program, with a name for its loop. -/
def singleLoopProg (name : VarName) : Statement FourLabels FourLabels :=
  topTrue cName (topFlagged name outerFlag cName
    (.cons ⊤ (.operation strong incr hRef [])
      (.cons ⊤ (.assignment ⊤ (.var (topVar cName)) (topVar Builtin.falseName)) (.nil ⊤))))

def singleLoopNamed : Statement FourLabels FourLabels := singleLoopProg (.counter 1 1)

def singleLoopPhases : List (Prephase FourLabels) :=
  (splitComputation .insertion [(hName, counter strong)] singleLoopNamed).toOption.getD []

/-- The phase of label top, and that of label strong. -/
def singleLoopPhase (i : Nat) : Stmt FourLabels :=
  (singleLoopPhases.map fun P => P.ast.forStore (mapTypes singleLoopNamed)).getD i .nil

def singleLoopRun : List Event :=
  let first := attempt counterHost counterStore (fun _ => false) 3 (singleLoopPhase 0)
    nestedLoopsMem (.written, 0) []
  (attempt counterHost counterStore (fun _ => false) 3 (singleLoopPhase 1) first.2.1 first.2.2.1
    first.2.2.2).2.2.2

/-- The first turn does the body, the second clears the flag. -/
def singleLoopOutcomes : Outcomes where
  branch p := p.turns = [0]
  turns _ := 2

theorem singleLoop_userNames : UserNames (singleLoopProg .unnamed) :=
  ⟨rfl, rfl, ⟨trivial, rfl, trivial⟩, rfl⟩

theorem singleLoop_sheltered : Sheltered singleLoopNamed := by
  simp [Sheltered, singleLoopNamed, singleLoopProg, topTrue, topFlagged, places, FlowsTo]

theorem singleLoop_finishes :
    Finishes counterHost counterStore (fun _ => false) 3
      (singleLoopPhases.map fun P => P.ast.forStore (mapTypes singleLoopNamed)) nestedLoopsMem []
      singleLoopRun := by
  have two : singleLoopPhases.map (fun P => P.ast.forStore (mapTypes singleLoopNamed)) =
      [singleLoopPhase 0, singleLoopPhase 1] := by decide
  rw [two]
  exact .next (.written, 0) (by decide +kernel) (.next _ (by decide +kernel) .done)

theorem singleLoop_compiled :
    Compiled .insertion counting (Lookup.first _ _) (fun _ _ => false) (fun _ => false) []
      [(hName, counter strong)] singleLoop (singleLoopProg .unnamed) :=
  ⟨singleLoopProg .unnamed, 30, [none], ⟨(typecheckTransaction counting (Lookup.first _ _)
    [(hName, counter strong)] singleLoop).get (by decide), (Option.some_get _).symm, by decide⟩,
    by decide, by decide⟩

end FourLabels

end MixT.Split
