import MixT.Compile.InsertTracking
import MixT.Endorse.Relabel
import MixT.Flatten.Anorm
import MixT.Split.Coherence
import MixT.Split.Counting

/-! # How often loops turn

A transaction runs its phases one after the other, each on the variables that the one before
it has left. A repeated loop turns as often as it did where its condition was evaluated
exactly when the loop of its name that was evaluated last did. -/

namespace MixT.Split

open Library Eff
open Phase (Mem)

namespace Stmt

variable {L : Type*} {d : Nat} {allowed : Bool}

theorem Counts.keepRefreshes {s : Stmt L} (h : s.Counts d allowed) (p : VarRef Unit L → Bool) :
    (s.keepRefreshes p).Counts d allowed := by
  induction s generalizing d allowed with
  | letIn o b body ih => exact ⟨h.1, ih h.2⟩
  | letRemote o b body ih => exact ⟨h.1, ih h.2⟩
  | refreshRemoteOccurance o hd =>
      unfold Stmt.keepRefreshes
      split <;> trivial
  | ifThen o c t e iht ihe => exact ⟨iht h.1, ihe h.2⟩
  | whileLoop o name c body ih =>
      obtain ⟨e, hname, le, hbody⟩ := h
      exact ⟨e, hname, le, ih hbody⟩
  | forEach o name body ih =>
      obtain ⟨e, hname, le, hbody⟩ := h
      exact ⟨e, hname, le, ih hbody⟩
  | cons first rest ihf ihr => exact ⟨ihf h.1, ihr h.2⟩
  | _ => exact h

end Stmt

/-- What the splitter gets of a transaction that type checking and label inference accept,
where no label becomes a pre-endorse label. -/
def Compiled {L : Type*} [LinearOrder L] [BoundedOrder L] (sorting : ComparisonSort)
    (host : HostTypes L) (lookup : Lookup (Label L) L) (tracks : L → L → Bool)
    (mightTrack : L → Bool) (extra : List L) (inputs : List (VarName × Ty L))
    (body : Parsed.Stmt L) (out : Statement L L) : Prop :=
  ∃ prog n all, Inference.Accepted sorting host lookup inputs body prog ∧
    let tracked := (Compile.insertTrackingBegin sorting tracks mightTrack extra prog).mapLabel
      Endorse.PreLabel.plain
    Endorse.preEndorseRounds tracked n (Worklist.start none) = some ⟨[], all⟩ ∧
      Endorse.endorseRelabel all tracked = some (out.mapLabel .plain)

section Runs

variable {L V F Sh : Type} [Inhabited V] [DecidableEq L] (host : Phase.Host V F)
  (backend : Phase.Backend V F Sh) (rightFirst : List Phase.Expr → Bool) (n : Nat)

/-- `common_interp_loop`, with the log of what was done before. -/
def attempt (s : Stmt L) (m : Mem L V) (sh : Sh) (log : List Event) :
    Except (Phase.Signal V F) Unit × Mem L V × Sh × List Event :=
  (logged host backend rightFirst n s []).run (m.beginPhase, sh, log)

/-- Without the log, an attempt is the phase. -/
theorem attempt_erases (s : Stmt L) (m : Mem L V) (sh : Sh) (log : List Event) :
    (Phase.exec host backend rightFirst n s.toPhase).run (m.beginPhase, sh) =
      ((attempt host backend rightFirst n s m sh log).1,
        (attempt host backend rightFirst n s m sh log).2.1,
        (attempt host backend rightFirst n s m sh log).2.2.1) := by
  have sim : Sim Phase.Beside Eq (logged host backend rightFirst n s [])
      (Phase.exec host backend rightFirst n s.toPhase) := logged_sim n s []
  obtain ⟨results, mems, shared⟩ := sim (m.beginPhase, sh, log) (m.beginPhase, sh) ⟨rfl, rfl⟩
  exact Prod.ext results.eq.symm (Prod.ext mems.symm shared.symm)

/-- An attempt that commits: the phase gets to its end, or to a return. -/
def completes : Except (Phase.Signal V F) Unit → Bool
  | .ok _ => true
  | .error (.returned _) => true
  | .error _ => false

/-- Runs of phases, from a log to a log. The stores are in any state when an attempt begins.
A run may end before a phase, and with an attempt that fails. -/
inductive Runs : List (Stmt L) → Mem L V → List Event → List Event → Prop
  | stop {phases : List (Stmt L)} {m : Mem L V} {log : List Event} : Runs phases m log log
  | last {s : Stmt L} {phases : List (Stmt L)} {m : Mem L V} {log : List Event} (sh : Sh) :
      Runs (s :: phases) m log (attempt host backend rightFirst n s m sh log).2.2.2
  | next {s : Stmt L} {phases : List (Stmt L)} {m : Mem L V} {log log' : List Event} (sh : Sh) :
      completes (attempt host backend rightFirst n s m sh log).1 = true →
      Runs phases (attempt host backend rightFirst n s m sh log).2.1
        (attempt host backend rightFirst n s m sh log).2.2.2 log' →
      Runs (s :: phases) m log log'

/-- No counter is set. -/
def Unset (m : Mem L V) : Prop := ∀ x e, depth x = some e → m.holders x = .value none

variable {host backend rightFirst n} {d : Nat}

omit [DecidableEq L] in
theorem Good.beginPhase {st : Mem L V × Sh × List Event} (good : Good host d st) (sh : Sh) :
    Good host d (st.1.beginPhase, sh, st.2.2) := by
  refine ⟨fun x e he hd => ?_, good.faithful⟩
  obtain ⟨t, holder, count⟩ := good.counters x e he hd
  exact ⟨t, by simp [Mem.beginPhase, holder], count⟩

omit [DecidableEq L] in
theorem Unset.good {m : Mem L V} (unset : Unset m) (sh : Sh) : Good host d (m, sh, []) :=
  ⟨fun x e he _ => ⟨none, unset x e he, rfl⟩, faithful_nil host⟩

/-- An attempt repeats loops as often as their counters say, and keeps the counters right if
it commits. -/
theorem attempt_keeps {s : Stmt L} (named : s.Counts d true)
    (counts : ∀ i ≤ n, host.count (host.ofInt i) = i) {st : Mem L V × Sh × List Event}
    (good : Good host d st) (sh : Sh) :
    Faithful host (attempt host backend rightFirst n s st.1 sh st.2.2).2.2.2 ∧
      (completes (attempt host backend rightFirst n s st.1 sh st.2.2).1 = true →
        Good host d (attempt host backend rightFirst n s st.1 sh st.2.2).2) := by
  have keeping : Keeping host d true (logged host backend rightFirst n s []) :=
    logged_keeping n named [] counts
  have kept := keeping _ (good.beginPhase sh)
  unfold attempt
  unfold wp at kept
  split at kept
  · rename_i v st' hrun
    rw [hrun]
    exact ⟨kept.1.faithful, fun _ => kept.1⟩
  · rename_i e st' hrun
    rw [hrun]
    refine ⟨kept.1, fun completes => ?_⟩
    cases e with
    | returned v => exact (kept.2 v rfl).2.1
    | fault f => cases completes
    | outOfTurns => cases completes

/-- A run repeats loops as often as their counters say. -/
theorem Runs.faithful {phases : List (Stmt L)} (named : ∀ s ∈ phases, s.Counts d true)
    (counts : ∀ i ≤ n, host.count (host.ofInt i) = i) {m : Mem L V} {log log' : List Event}
    (runs : Runs host backend rightFirst n phases m log log') (faithful : Faithful host log)
    (good : ∀ sh : Sh, Good host d (m, sh, log)) : Faithful host log' := by
  induction runs with
  | stop => exact faithful
  | last sh => exact (attempt_keeps (named _ List.mem_cons_self) counts (good sh) sh).1
  | next sh completes _ ih =>
      obtain ⟨faithful', good'⟩ := attempt_keeps (named _ List.mem_cons_self) counts (good sh) sh
      have kept := good' completes
      exact ih (fun s hs => named s (List.mem_cons_of_mem _ hs)) faithful'
        fun _ => ⟨kept.counters, kept.faithful⟩

end Runs

section Program

variable {L V F Sh : Type} [LinearOrder L] [BoundedOrder L] {sorting : ComparisonSort}
  {inputs : List (VarName × Ty L)} {prog named : Statement L L} {phases : List (Prephase L)}

theorem phases_count (user : UserNames prog) (naming : easyProcessingPass prog = .ok named)
    (split : splitComputation sorting inputs named = .ok phases) :
    ∀ s ∈ phases.map fun P => P.ast.forStore (mapTypes named), s.Counts 1 true := by
  intro s hs
  obtain ⟨P, hP, rfl⟩ := List.mem_map.mp hs
  have loops : CountsLoops 1 true named := easyProcessing_countsLoops naming user
  exact (splitLabels_counts loops split P hP).keepRefreshes _

end Program

/-- In every run of the phases of every program: a loop that is repeated turns as often as the
loop of its name that was evaluated last. -/
theorem loops_repeat_last {L : Type} [LinearOrder L] [BoundedOrder L] (sorting : ComparisonSort)
    (inputs : List (VarName × Ty L)) (prog named : Statement L L) (user : UserNames prog)
    (naming : easyProcessingPass prog = .ok named) (phases : List (Prephase L))
    (split : splitComputation sorting inputs named = .ok phases)
    {V F Sh : Type} [Inhabited V] (host : Phase.Host V F) (backend : Phase.Backend V F Sh)
    (rightFirst : List Phase.Expr → Bool) (n : Nat)
    (counts : ∀ i ≤ n, host.count (host.ofInt i) = i) (m : Mem L V) (unset : Unset m)
    (log : List Event)
    (runs : Runs host backend rightFirst n
      (phases.map fun P => P.ast.forStore (mapTypes named)) m [] log) :
    Faithful host log :=
  runs.faithful (phases_count user naming split) counts (faithful_nil host) unset.good

section FourLabels

open Inference (FourLabels strong)

def cName : VarName := .ident ['c']

def dName : VarName := .ident ['d']

def eName : VarName := .ident ['e']

def outerFlag : VarName := .ident (Flatten.whileName 1 1)

def innerFlag : VarName := .ident (Flatten.whileName 1 2)

def varTrue (x : VarName) (body : Parsed.Stmt FourLabels) : Parsed.Stmt FourLabels :=
  .letIn x (.varReference Builtin.trueName) body

/-- A loop, with the flag it is given when it is flattened. -/
def flagged (flag c : VarName) (body : Parsed.Stmt FourLabels) : Parsed.Stmt FourLabels :=
  varTrue flag (.whileLoop flag
    (.ifThen c body (.assignment (.var flag) Builtin.falseName)))

/-- `var c = true, var d = true, var e = true,
while (c) { while (d) { h.incr(), d = false }, c = e, e = false }`. -/
def nestedLoops : Parsed.Stmt FourLabels :=
  varTrue cName (varTrue dName (varTrue eName (flagged outerFlag cName
    (.cons
      (flagged innerFlag dName
        (.cons (.operation incr hName [])
          (.cons (.assignment (.var dName) Builtin.falseName) .nil)))
      (.cons (.assignment (.var cName) eName)
        (.cons (.assignment (.var eName) Builtin.falseName) .nil))))))

def topVar (x : VarName) : VarRef FourLabels FourLabels := ⟨⊤, .bool, x⟩

def topTrue (x : VarName) (body : Statement FourLabels FourLabels) :
    Statement FourLabels FourLabels :=
  .letIn ⊤ ⟨⊤, .bool, x, ⟨⊤, .bool, .varReference Builtin.trueName⟩⟩ body

def topFlagged (name flag c : VarName) (body : Statement FourLabels FourLabels) :
    Statement FourLabels FourLabels :=
  topTrue flag (.whileLoop ⊤ name (topVar flag)
    (.ifThen ⊤ (topVar c) body (.assignment ⊤ (.var (topVar flag)) (topVar Builtin.falseName))))

/-- The program, with names for its loops. -/
def nestedLoopsProg (outer inner : VarName) : Statement FourLabels FourLabels :=
  topTrue cName (topTrue dName (topTrue eName (topFlagged outer outerFlag cName
    (.cons ⊤
      (topFlagged inner innerFlag dName
        (.cons ⊤ (.operation strong incr hRef [])
          (.cons ⊤ (.assignment ⊤ (.var (topVar dName)) (topVar Builtin.falseName)) (.nil ⊤))))
      (.cons ⊤ (.assignment ⊤ (.var (topVar cName)) (topVar eName))
        (.cons ⊤ (.assignment ⊤ (.var (topVar eName)) (topVar Builtin.falseName)) (.nil ⊤)))))))

def nestedLoopsNamed : Statement FourLabels FourLabels :=
  nestedLoopsProg (.counter 1 1) (.counter 2 2)

def nestedLoopsPhases : List (Prephase FourLabels) :=
  (splitComputation .insertion [(hName, counter strong)] nestedLoopsNamed).toOption.getD []

def boolVar (x : VarName) : VarRef Unit FourLabels := ⟨(), .bool, x⟩

def bindTrue (o : Origin) (x : VarName) (body : Stmt FourLabels) : Stmt FourLabels :=
  .letIn o ⟨⊤, .bool, x, ⟨(), .bool, .varReference Builtin.trueName⟩⟩ body

def outerPlace : Origin := List.replicate 4 0

def innerPlace : Origin := List.replicate 8 0

/-- The phase of label top evaluates the conditions. -/
def evaluating : Stmt FourLabels :=
  bindTrue [] cName (bindTrue [0] dName (bindTrue [0, 0] eName (bindTrue [0, 0, 0] outerFlag
    (.whileLoop outerPlace (.counter 1 1) (boolVar outerFlag)
      (.ifThen (0 :: outerPlace) (boolVar cName)
        (.cons
          (bindTrue (List.replicate 7 0) innerFlag
            (.whileLoop innerPlace (.counter 2 2) (boolVar innerFlag)
              (.ifThen (0 :: innerPlace) (boolVar dName)
                (.cons
                  (.assignment (0 :: 1 :: 0 :: 0 :: innerPlace) (.var (boolVar dName))
                    (boolVar Builtin.falseName))
                  .nil)
                (.assignment (1 :: 0 :: innerPlace) (.var (boolVar innerFlag))
                  (boolVar Builtin.falseName)))))
          (.cons
            (.assignment (0 :: 1 :: 0 :: 0 :: outerPlace) (.var (boolVar cName)) (boolVar eName))
            (.cons
              (.assignment (0 :: 1 :: 1 :: 0 :: 0 :: outerPlace) (.var (boolVar eName))
                (boolVar Builtin.falseName))
              .nil)))
        (.assignment (1 :: 0 :: outerPlace) (.var (boolVar outerFlag))
          (boolVar Builtin.falseName)))))))

/-- The phase of label strong repeats the loops. -/
def repeating : Stmt FourLabels :=
  .cons (.incrementOccurance [] cName) (.cons (.incrementOccurance [0] dName) (.cons
    (.forEach outerPlace (.counter 1 1)
      (.ifThen (0 :: outerPlace) (boolVar cName)
        (.cons
          (.forEach innerPlace (.counter 2 2)
            (.ifThen (0 :: innerPlace) (boolVar dName)
              (.cons (.operation (0 :: 0 :: 0 :: innerPlace) incr unlabelled [])
                (.cons .nil
                  (.cons (.incrementOccurance (0 :: 1 :: 0 :: 0 :: innerPlace) dName) .nil)))
              .nil))
          (.cons (.incrementOccurance (0 :: 1 :: 0 :: 0 :: outerPlace) cName) .nil))
        .nil))
    .nil))

/-- The store of the program: its variables hold nothing yet. -/
def nestedLoopsMem : Mem FourLabels Int where
  holders x := if x ∈ [cName, dName, eName, outerFlag, innerFlag] then .type .empty else .value none
  super _ _ := .empty

theorem nestedLoops_phases :
    (nestedLoopsPhases.map fun P => P.ast.forStore (mapTypes nestedLoopsNamed)) =
      [evaluating, repeating] := by
  decide

theorem nestedLoops_userNames : UserNames (nestedLoopsProg .unnamed .unnamed) :=
  ⟨rfl, rfl, rfl, rfl, ⟨⟨rfl, ⟨trivial, rfl, trivial⟩, rfl⟩, rfl, rfl, trivial⟩, rfl⟩

theorem nestedLoopsMem_unset : Unset nestedLoopsMem := by
  rintro (chars | ⟨q, d⟩) e he
  · cases he
  · simp [nestedLoopsMem, cName, dName, eName, outerFlag, innerFlag]

def nestedLoopsRun : List Event :=
  let first := attempt counterHost counterStore (fun _ => false) 3 evaluating nestedLoopsMem
    (.written, 0) []
  (attempt counterHost counterStore (fun _ => false) 3 repeating first.2.1 first.2.2.1
    first.2.2.2).2.2.2

theorem nestedLoops_runs :
    Runs counterHost counterStore (fun _ => false) 3
      (nestedLoopsPhases.map fun P => P.ast.forStore (mapTypes nestedLoopsNamed)) nestedLoopsMem []
      nestedLoopsRun := by
  rw [nestedLoops_phases]
  exact .next (.written, 0) (by decide +kernel) (.last _)

theorem nestedLoops_repeatLast : Faithful counterHost nestedLoopsRun :=
  loops_repeat_last .insertion [(hName, counter strong)] (nestedLoopsProg .unnamed .unnamed)
    nestedLoopsNamed nestedLoops_userNames (by decide) nestedLoopsPhases (by decide) counterHost counterStore (fun _ => false) 3
    (fun i _ => Int.toNat_natCast i) nestedLoopsMem nestedLoopsMem_unset nestedLoopsRun
    nestedLoops_runs

/-- The first turn of the outer loop turns the inner one twice, and repeats it once. -/
theorem nestedLoops_miscounted :
    Compiled .insertion counting (Lookup.first _ _) (fun _ _ => false) (fun _ => false) []
      [(hName, counter strong)] nestedLoops (nestedLoopsProg .unnamed .unnamed) ∧
    easyProcessingPass (nestedLoopsProg .unnamed .unnamed) = .ok nestedLoopsNamed ∧
    splitComputation .insertion [(hName, counter strong)] nestedLoopsNamed = .ok nestedLoopsPhases ∧
    ∃ log, Runs counterHost counterStore (fun _ => false) 3
        (nestedLoopsPhases.map fun P => P.ast.forStore (mapTypes nestedLoopsNamed)) nestedLoopsMem []
        log ∧
      ¬ ReplaysAsEvaluated log := by
  refine ⟨⟨nestedLoopsProg .unnamed .unnamed, 30, [none], ⟨(typecheckTransaction counting
    (Lookup.first _ _) [(hName, counter strong)] nestedLoops).get (by decide),
    (Option.some_get _).symm, by decide⟩, by decide, by decide⟩, by decide, by decide,
    nestedLoopsRun, nestedLoops_runs, fun right => ?_⟩
  have inner : Turned nestedLoopsRun ⟨innerPlace, [0]⟩ 1 :=
    right ⟨innerPlace, [0]⟩ (.counter 2 2) 1 (by decide +kernel)
  have twice : 2 = 1 := inner.2 (.counter 2 2) 2 (by decide +kernel)
  exact absurd twice (by decide)

end FourLabels

end MixT.Split
