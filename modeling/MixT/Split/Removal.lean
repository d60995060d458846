import MixT.Split.References

/-! # Removing dead steps and empty ifs

A phase is trimmed in three passes: steps over variables that it does not require go,
then the ifs that are left empty, then the steps over what only those ifs tested. -/

namespace MixT.Split

open Library Eff

section Trims

open Stmt (Trims)

variable {L : Type*} {requires : List (VarBinding L)} {D : VarName → Prop} {s : Stmt L}

theorem trims_removeUnused
    (steps : ∀ x ∈ s.steps, ¬ containsVarOfName x requires = true → D x)
    (refreshed : ∀ h ∈ s.refreshed, containsVarOfName h.var requires = true) :
    Trims D s (removeUnused requires s) := by
  induction s with
  | letIn o b body ih => exact .letIn o b (ih steps refreshed)
  | letRemote o b body ih => exact .letRemote o b (ih steps refreshed)
  | incrementOccurance o x =>
      by_cases h : containsVarOfName x requires = true
      · simpa [removeUnused, h] using Trims.same (by rfl)
      · simpa [removeUnused, h] using Trims.increment o (steps x (by simp [Stmt.steps]) h)
  | incrementRemoteOccurance o x =>
      by_cases h : containsVarOfName x requires = true
      · simpa [removeUnused, h] using Trims.same (by rfl)
      · simpa [removeUnused, h] using Trims.incrementRemote o (steps x (by simp [Stmt.steps]) h)
  | refreshRemoteOccurance o h =>
      simpa [removeUnused, refreshed h (by simp [Stmt.refreshed])] using Trims.same (by rfl)
  | ifThen o c t e iht ihe =>
      apply Trims.ifThen o c
      · exact iht (fun x hx => steps x (List.mem_append_left _ hx))
          fun h hh => refreshed h (List.mem_append_left _ hh)
      · exact ihe (fun x hx => steps x (List.mem_append_right _ hx))
          fun h hh => refreshed h (List.mem_append_right _ hh)
  | whileLoop o name c body ih => exact .whileLoop o name c (ih steps refreshed)
  | forEach o name body ih => exact .forEach o name (ih steps refreshed)
  | cons first rest ihf ihr =>
      apply Trims.cons
      · exact ihf (fun x hx => steps x (List.mem_append_left _ hx))
          fun h hh => refreshed h (List.mem_append_left _ hh)
      · exact ihr (fun x hx => steps x (List.mem_append_right _ hx))
          fun h hh => refreshed h (List.mem_append_right _ hh)
  | _ => exact .same rfl

/-- The first two passes trim a phase. No removed if may construct a list. -/
theorem trims_clearEmpty
    (steps : ∀ x ∈ s.steps, ¬ containsVarOfName x requires = true → D x)
    (refreshed : ∀ h ∈ s.refreshed, containsVarOfName h.var requires = true)
    (outer : Builtin.listName ∉ (clearEmpty (removeUnused requires s)).removeFromRequire)
    (inner : Builtin.listName ∉ innerTests (removeUnused requires s)) :
    Trims D s (clearEmpty (removeUnused requires s)).ast := by
  induction s with
  | letIn o b body ih => exact .letIn o b (ih steps refreshed outer inner)
  | letRemote o b body ih => exact .letRemote o b (ih steps refreshed outer inner)
  | incrementOccurance o x =>
      by_cases h : containsVarOfName x requires = true
      · simpa [removeUnused, clearEmpty, h] using Trims.same (by rfl)
      · simpa [removeUnused, clearEmpty, h] using
          Trims.increment o (steps x (by simp [Stmt.steps]) h)
  | incrementRemoteOccurance o x =>
      by_cases h : containsVarOfName x requires = true
      · simpa [removeUnused, clearEmpty, h] using Trims.same (by rfl)
      · simpa [removeUnused, clearEmpty, h] using
          Trims.incrementRemote o (steps x (by simp [Stmt.steps]) h)
  | refreshRemoteOccurance o h =>
      simpa [removeUnused, clearEmpty, refreshed h (by simp [Stmt.refreshed])] using
        Trims.same (by rfl)
  | ifThen o c t e iht ihe =>
      have stepsT := iht (fun x hx => steps x (List.mem_append_left _ hx))
        fun h hh => refreshed h (List.mem_append_left _ hh)
      have stepsE := ihe (fun x hx => steps x (List.mem_append_right _ hx))
        fun h hh => refreshed h (List.mem_append_right _ hh)
      rw [removeUnused, clearEmpty_ifThen]
      split
      · rename_i empty
        have emptied := Bool.and_eq_true_iff.mp empty
        simp only [removeUnused, clearEmpty, innerTests, empty, if_true, List.mem_append,
          List.mem_singleton, not_or] at outer inner
        obtain ⟨⟨outerT, outerE⟩, innerT, innerE⟩ := inner
        exact .emptyIf o (Ne.symm outer) (stepsT outerT innerT) (stepsE outerE innerE)
          emptied.1 emptied.2
      · rename_i kept
        simp only [removeUnused, clearEmpty, innerTests, if_neg kept, List.mem_append,
          not_or] at outer inner
        exact .ifThen o c (stepsT outer.1 inner.1) (stepsE outer.2 inner.2)
  | whileLoop o name c body ih => exact .whileLoop o name c (ih steps refreshed outer inner)
  | forEach o name body ih => exact .forEach o name (ih steps refreshed outer inner)
  | cons first rest ihf ihr =>
      simp only [removeUnused, clearEmpty, innerTests, List.mem_append, not_or] at outer inner
      apply Trims.collapse
      apply Trims.cons
      · exact ihf (fun x hx => steps x (List.mem_append_left _ hx))
          (fun h hh => refreshed h (List.mem_append_left _ hh)) outer.1 inner.1
      · exact ihr (fun x hx => steps x (List.mem_append_right _ hx))
          (fun h hh => refreshed h (List.mem_append_right _ hh)) outer.2 inner.2
  | _ => exact .same rfl

end Trims

section Removal

variable {L : Type} {k : L} {inherits : List (VarBinding L)} {c : Collected L}

/-- What the first two passes leave. -/
def remaining (c : Collected L) : Cleared L := clearEmpty (removeUnused c.requires c.ast)

/-- The variable is required, and not only tested by ifs that are removed. -/
def StillRequired (c : Collected L) (x : VarName) : Prop :=
  containsVarOfName x c.requires = true ∧
    (x ∈ (remaining c).removeFromRequire → x ∈ (remaining c).stillRequire)

/-- The variables that a program binds remotely. -/
def remotes {Λ : Type} : Statement Λ L → List VarName
  | .letIn _ _ body => remotes body
  | .letRemote _ b body => b.var :: remotes body
  | .ifThen _ _ t e => remotes t ++ remotes e
  | .whileLoop _ _ _ body => remotes body
  | .cons _ first rest => remotes first ++ remotes rest
  | _ => []

/-- The remote variables of a store are bound remotely. -/
def Fits {V : Type} (remote : List VarName) (m : Phase.Mem L V) : Prop :=
  ∀ x handleType handle currPos, m.holders x = .remote handleType handle currPos → x ∈ remote

/-- From every store that fits, the phases have the same effects and the same end, and
leave the same values to what the second reads and to the phases that follow. -/
def RunsAlike [DecidableEq L] (remote : List VarName) (before after : Stmt L) : Prop :=
  ∀ (V F Sh : Type) [Inhabited V] (host : Phase.Host V F) (backend : Phase.Backend V F Sh)
    (rightFirst : List Phase.Expr → Bool) (n : Nat) (m : Phase.Mem L V) (sh : Sh),
    Fits remote m →
    let r := (Phase.exec host backend rightFirst n before.toPhase).run (m, sh)
    let r' := (Phase.exec host backend rightFirst n after.toPhase).run (m, sh)
    r.1 = r'.1 ∧ r.2.2 = r'.2.2 ∧ (∀ x, after.Reads x → r.2.1.get host x = r'.2.1.get host x) ∧
      r.2.1.beginPhase = r'.2.1.beginPhase

/-- Removal keeps the runs of the phase and the steps over what it reads, and the final
requirements are what it refers to and does not bind. -/
structure RemovalSafe [DecidableEq L] (k : L) (inherits : List (VarBinding L))
    (prog : Statement L L) (c : Collected L) : Prop where
  runs : RunsAlike (remotes prog) c.ast (finalPhase k inherits c).ast
  steps : ∀ x, (finalPhase k inherits c).ast.Reads x →
    (finalPhase k inherits c).ast.steps.filter (· = x) = c.ast.steps.filter (· = x)
  covered : ∀ x, (finalPhase k inherits c).ast.Reads x ∨ x ∈ (finalPhase k inherits c).ast.steps →
    Builtin.isBuiltinVar x = true ∨
      containsVarOfName x ((finalPhase k inherits c).requires ++ c.provides) = true
  needed : ∀ b ∈ (finalPhase k inherits c).requires,
    (finalPhase k inherits c).ast.Reads b.name ∨ b.name ∈ (finalPhase k inherits c).ast.steps

/-- What a phase reads and steps over is still required, as is what it reads without naming
it, and what an if in a removed if tests is tested outside or still referred to. -/
structure NamesHarmless (c : Collected L) : Prop where
  stepped : ∀ x, (remaining c).ast.Reads x → x ∈ c.ast.steps → StillRequired c x
  implied : ∀ x ∈ (remaining c).ast.implied, Builtin.isBuiltinVar x = true ∨
    containsVarOfName x c.provides = true ∨ StillRequired c x
  inner : ∀ x ∈ innerTests (removeUnused c.requires c.ast), containsVarOfName x c.requires = true →
    x ∈ (remaining c).removeFromRequire ∨ (remaining c).ast.Reads x ∨ x ∈ (remaining c).ast.steps

/-- Besides, each refreshed handle is required, no removed if constructs a list, and no
variable is remote whose steps are removed. -/
structure RemovalHarmless (prog : Statement L L) (c : Collected L) : Prop
    extends NamesHarmless c where
  refreshed : ∀ h ∈ c.ast.refreshed, containsVarOfName h.var c.requires = true
  noList : Builtin.listName ∉ (remaining c).removeFromRequire ∧
    Builtin.listName ∉ innerTests (removeUnused c.requires c.ast)
  localSteps : ∀ x ∈ c.ast.steps, ¬ StillRequired c x → x ∉ remotes prog

theorem finalPhase_ast : (finalPhase k inherits c).ast =
    removeUnused (finalPhase k inherits c).requires (remaining c).ast := rfl

theorem mem_finalPhase_requires {b : VarBinding L} : b ∈ (finalPhase k inherits c).requires ↔
    b ∈ c.requires ∧
      (b.name ∈ (remaining c).removeFromRequire → b.name ∈ (remaining c).stillRequire) := by
  simp only [finalPhase, withoutNames, remaining, List.mem_filter, decide_eq_true_eq]
  grind

theorem stillRequired_iff {x : VarName} :
    containsVarOfName x (finalPhase k inherits c).requires = true ↔ StillRequired c x := by
  simp only [containsVarOfName_iff, StillRequired, mem_finalPhase_requires]
  grind

/-- The last pass removes no refresh. -/
theorem refreshed_required :
    ∀ h ∈ (remaining c).ast.refreshed,
      containsVarOfName h.var (finalPhase k inherits c).requires = true := by
  intro h hh
  apply stillRequired_iff.mpr
  have used : h.var ∈ (remaining c).stillRequire :=
    uses_subset_stillRequire (Stmt.uses_of_refreshed hh)
  exact ⟨refreshed_of_removeUnused (refreshed_of_clearEmpty hh), fun _ => used⟩

theorem reads_finalPhase {x : VarName} :
    (finalPhase k inherits c).ast.Reads x ↔ (remaining c).ast.Reads x := by
  rw [finalPhase_ast, Stmt.Reads, Stmt.Reads, uses_removeUnused_all refreshed_required,
    implied_removeUnused]

theorem steps_remaining {x : VarName} :
    x ∈ (remaining c).ast.steps ↔ x ∈ c.ast.steps ∧ containsVarOfName x c.requires = true := by
  rw [remaining, steps_clearEmpty, steps_removeUnused, List.mem_filter]

theorem steps_finalPhase {x : VarName} :
    x ∈ (finalPhase k inherits c).ast.steps ↔ x ∈ c.ast.steps ∧ StillRequired c x := by
  rw [finalPhase_ast, steps_removeUnused, List.mem_filter, steps_remaining, stillRequired_iff]
  unfold StillRequired
  tauto

/-- The steps over a variable are kept where it is still required. -/
theorem steps_kept_iff {x : VarName} :
    (finalPhase k inherits c).ast.steps.filter (· = x) = c.ast.steps.filter (· = x) ↔
      (x ∈ c.ast.steps → StillRequired c x) := by
  constructor
  · intro same hx
    have kept : x ∈ (finalPhase k inherits c).ast.steps.filter (· = x) := by
      rw [same]
      simpa using hx
    exact (steps_finalPhase.mp (List.mem_filter.mp kept).1).2
  · intro required
    have unfolded : (finalPhase k inherits c).ast.steps =
        c.ast.steps.filter fun y => containsVarOfName y (finalPhase k inherits c).requires &&
          containsVarOfName y c.requires := by
      rw [finalPhase_ast, steps_removeUnused, remaining, steps_clearEmpty, steps_removeUnused,
        List.filter_filter]
    rw [unfolded, List.filter_filter]
    apply List.filter_congr
    intro y hy
    by_cases here : y = x
    · subst here
      have still := required hy
      simp [stillRequired_iff.mpr still, still.1]
    · simp [here]

section Safe

variable [LinearOrder L] {o : Origin} {prog : Statement L L}

theorem covered_iff (h : collectPhase k inherits o [] prog = .ok c) :
    (∀ x, (finalPhase k inherits c).ast.Reads x ∨ x ∈ (finalPhase k inherits c).ast.steps →
      Builtin.isBuiltinVar x = true ∨
        containsVarOfName x ((finalPhase k inherits c).requires ++ c.provides) = true) ↔
    ∀ x ∈ (remaining c).ast.implied, Builtin.isBuiltinVar x = true ∨
      containsVarOfName x c.provides = true ∨ StillRequired c x := by
  simp only [containsVarOfName_append, stillRequired_iff, reads_finalPhase]
  constructor
  · intro covered x hx
    have := covered x (Or.inl (Or.inr hx))
    tauto
  · intro implied x hx
    obtain (hx | hx) | hx := hx
    · have named : x ∈ c.ast.uses := uses_of_removeUnused (uses_of_clearEmpty hx)
      have still := uses_subset_stillRequire hx
      have known := collectPhase_uses h x named
      obtain builtin | given | provided | required := known
      · exact Or.inl builtin
      · simp [containsVarOfName] at given
      · exact Or.inr (Or.inr provided)
      · exact Or.inr (Or.inl ⟨required, fun _ => still⟩)
    · have := implied x hx
      tauto
    · exact Or.inr (Or.inl (steps_finalPhase.mp hx).2)

theorem needed_iff (h : collectPhase k inherits o [] prog = .ok c) :
    (∀ b ∈ (finalPhase k inherits c).requires,
      (finalPhase k inherits c).ast.Reads b.name ∨ b.name ∈ (finalPhase k inherits c).ast.steps) ↔
    ∀ x ∈ innerTests (removeUnused c.requires c.ast), containsVarOfName x c.requires = true →
      x ∈ (remaining c).removeFromRequire ∨ (remaining c).ast.Reads x ∨
        x ∈ (remaining c).ast.steps := by
  simp only [reads_finalPhase]
  constructor
  · intro needed x inner required
    by_cases tested : x ∈ (remaining c).removeFromRequire
    · exact Or.inl tested
    · obtain ⟨b, hb, rfl⟩ := containsVarOfName_iff.mp required
      obtain reads | steps := needed b (mem_finalPhase_requires.mpr ⟨hb, fun t => absurd t tested⟩)
      · exact Or.inr (Or.inl reads)
      · have stepped := steps_finalPhase.mp steps
        exact Or.inr (Or.inr (steps_remaining.mpr ⟨stepped.1, stepped.2.1⟩))
  · intro inner b hb
    have still := stillRequired_iff.mp (containsVarOfName_iff.mpr ⟨b, hb, rfl⟩)
    have remains : (remaining c).ast.Reads b.name ∨ b.name ∈ (remaining c).ast.steps →
        (remaining c).ast.Reads b.name ∨ b.name ∈ (finalPhase k inherits c).ast.steps := by
      intro referred
      exact referred.imp_right fun steps => steps_finalPhase.mpr ⟨(steps_remaining.mp steps).1, still⟩
    have tested : b.name ∈ (remaining c).removeFromRequire →
        (remaining c).ast.Reads b.name ∨ b.name ∈ (remaining c).ast.steps :=
      fun t => (stillRequire_subset (still.2 t)).imp_left Or.inl
    apply remains
    obtain (uses | implied) | steps := collectPhase_requires h b (mem_finalPhase_requires.mp hb).1
    · obtain uses | outer | inside := uses_clearEmpty (uses_removeUnused still.1 uses)
      · exact Or.inl (Or.inl uses)
      · exact tested outer
      · exact (inner b.name inside still.1).elim tested id
    · left
      right
      rw [remaining, implied_clearEmpty, implied_removeUnused]
      exact implied
    · exact Or.inr (steps_remaining.mpr ⟨steps, still.1⟩)

theorem runsAlike (harmless : RemovalHarmless prog c) :
    RunsAlike (remotes prog) c.ast (finalPhase k inherits c).ast := by
  intro V F Sh _ host backend rightFirst n m sh fits
  let D : VarName → Prop := fun x => x ∈ c.ast.steps ∧ ¬ StillRequired c x
  have first : Stmt.Trims D c.ast (remaining c).ast := by
    apply trims_clearEmpty
    · exact fun x hx unused => ⟨hx, fun still => unused still.1⟩
    · exact harmless.refreshed
    · exact harmless.noList.1
    · exact harmless.noList.2
  have last : Stmt.Trims D (remaining c).ast (finalPhase k inherits c).ast := by
    rw [finalPhase_ast]
    apply trims_removeUnused
    · intro x hx unused
      exact ⟨(steps_remaining.mp hx).1, fun still => unused (stillRequired_iff.mpr still)⟩
    · exact refreshed_required
  have unread : ∀ x, (remaining c).ast.Reads x → ¬ D x :=
    fun x reads dropped => dropped.2 (harmless.stepped x reads dropped.1)
  have sim : Sim (Phase.AgreeOn D) Eq (Phase.exec host backend rightFirst n c.ast.toPhase)
      (Phase.exec host backend rightFirst n (finalPhase k inherits c).ast.toPhase) :=
    (first.sim n unread).trans (fun s t agree => ⟨agree.1.right, rfl⟩)
      (fun s t u agree agree' => ⟨agree.1.trans agree'.1, agree.2.trans agree'.2⟩)
      (last.sim n fun x reads => unread x (reads_finalPhase.mp reads))
  have start : Phase.Agree D m m := by
    refine ⟨fun x _ => rfl, fun x dropped => ?_, rfl⟩
    cases holder : m.holders x with
    | value t => exact .value t
    | type g => exact .type rfl
    | remote handleType handle currPos =>
        have remote := fits x handleType handle currPos holder
        exact absurd remote (harmless.localSteps x dropped.1 dropped.2)
  obtain ⟨results, memories, shared⟩ := sim (m, sh) (m, sh) ⟨start, rfl⟩
  refine ⟨results.eq, shared, fun x reads => ?_, memories.beginPhase⟩
  exact memories.get (unread x (reads_finalPhase.mp reads))

end Safe

end Removal

section FourLabels

open Inference (FourLabels causal strong)

def aName : VarName := .ident ['a']

def bName : VarName := .ident ['b']

def gName : VarName := .ident ['g']

def hName : VarName := .ident ['h']

def incr : OperName := ['i', 'n', 'c', 'r']

/-- Counters behind handles, and nothing else. -/
def counters : HostTypes FourLabels := ⟨fun _ _ => none, fun _ _ _ => none, fun _ _ _ => some .void⟩

def counter (l : FourLabels) : Ty FourLabels := .handle l .int [incr]

/-- The parameters `a`, `b`, `h` and `g`. -/
def counterInputs : List (VarName × Ty FourLabels) :=
  [(aName, .bool), (bName, .bool), (hName, counter strong), (gName, counter causal)]

def counterBindings : List (VarBinding FourLabels) := (startBindings counterInputs).map .type

/-- `h.incr()`, all there is for the strong phase to do. -/
def incrStrong : Statement FourLabels FourLabels :=
  .operation strong incr ⟨⊤, counter strong, hName⟩ []

def incrStrongCollected : Collected FourLabels :=
  ⟨[.type ⟨hName, counter strong, ⊤, .localVar⟩], [],
    .cons (.operation [] incr ⟨(), counter strong, hName⟩ [])
      (.cons (.refreshRemoteOccurance [] ⟨(), counter strong, hName⟩) .nil)⟩

/-- `if (a) { if (b) { h.incr() } }, g.incr()`. -/
def nestedIfs : Parsed.Stmt FourLabels :=
  .cons (.ifThen aName (.ifThen bName (.operation incr hName []) .nil) .nil)
    (.cons (.operation incr gName []) .nil)

def nestedIfsProg : Statement FourLabels FourLabels :=
  .cons ⊤
    (.ifThen ⊤ ⟨⊤, .bool, aName⟩
      (.ifThen ⊤ ⟨⊤, .bool, bName⟩ incrStrong (.nil ⊤)) (.nil ⊤))
    (.cons ⊤ (.operation causal incr ⟨⊤, counter causal, gName⟩ []) (.nil ⊤))

def nestedIfsCollected : Collected FourLabels :=
  ⟨[.type ⟨aName, .bool, ⊤, .localVar⟩, .type ⟨bName, .bool, ⊤, .localVar⟩,
      .type ⟨gName, counter causal, ⊤, .localVar⟩], [],
    .cons (.ifThen [0] ⟨(), .bool, aName⟩ (.ifThen [0, 0] ⟨(), .bool, bName⟩ .nil .nil) .nil)
      (.cons (.operation [0, 1] incr ⟨(), counter causal, gName⟩ [])
        (.cons (.refreshRemoteOccurance [0, 1] ⟨(), counter causal, gName⟩) .nil))⟩

end FourLabels

end MixT.Split
