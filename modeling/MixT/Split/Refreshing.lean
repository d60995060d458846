import MixT.Split.Removal

/-! # What a phase refreshes

The splitter refreshes the object of a handle after the statement that operates on it, or
after the let that does. The passes over the phase drop the refreshes of handles that the
phase does not require. -/

namespace MixT.Split

open Library

section Programs

variable {Λ L : Type*}

/-- Every statement of the program runs at the label. -/
def SingleLabel (k : L) : Statement L L → Prop
  | .letIn l _ body => l = k ∧ SingleLabel k body
  | .letRemote l _ body => l = k ∧ SingleLabel k body
  | .operation l _ _ _ => l = k
  | .assignment l _ _ => l = k
  | .ret l _ => l = k
  | .accompanyWrite l _ => l = k
  | .writeTombstone l _ => l = k
  | .ifThen l _ t e => l = k ∧ SingleLabel k t ∧ SingleLabel k e
  | .whileLoop l _ _ body => l = k ∧ SingleLabel k body
  | .nil _ => True
  | .cons _ first rest => SingleLabel k first ∧ SingleLabel k rest

/-- The variables that a program uses outside the lets that bind them. -/
def freeVars : Statement Λ L → List VarName
  | .letIn _ b body => formVars b.expr.form ++ (freeVars body).filter (· ≠ b.var)
  | .letRemote _ b body => b.expr.var :: (freeVars body).filter (· ≠ b.var)
  | .operation _ _ h args => h.var :: args.map VarRef.var
  | .assignment _ target e => [target.baseVar, e.var]
  | .ret _ e => [e.var]
  | .accompanyWrite _ target => [target.baseVar]
  | .writeTombstone _ e => [e.var]
  | .ifThen _ c t e => c.var :: (freeVars t ++ freeVars e)
  | .whileLoop _ _ c body => c.var :: freeVars body
  | .nil _ => []
  | .cons _ first rest => freeVars first ++ freeVars rest

/-- The variable comes from outside the program, and is no constant. -/
def Inherited (prog : Statement Λ L) (x : VarName) : Prop :=
  x ∈ freeVars prog ∧ Builtin.isBuiltinVar x = false

/-- The types of the handles that the program binds remotely: those that have a
`remote_map_holder` in the store. -/
def mapTypes : Statement Λ L → List (Ty L)
  | .letIn _ _ body => mapTypes body
  | .letRemote _ b body => b.expr.yield :: mapTypes body
  | .ifThen _ _ t e => mapTypes t ++ mapTypes e
  | .whileLoop _ _ _ body => mapTypes body
  | .cons _ first rest => mapTypes first ++ mapTypes rest
  | _ => []

/-- The operation acts on the object of its handle. -/
def acts (name : OperName) : Bool :=
  name ≠ Builtin.pushBack && name ≠ Builtin.nulled && name ≠ Builtin.new

/-- The handle through which an expression operates on an object. -/
def formHandle : Form Λ L → Option (VarRef Λ L)
  | .operation name h _ => if acts name then some h else none
  | _ => none

end Programs

namespace Stmt

variable {L : Type*}

/-- The handle through which a statement itself operates on an object. -/
def handleOf : Stmt L → Option (VarRef Unit L)
  | .letIn _ b _ => formHandle b.expr.form
  | .operation _ name h args => formHandle (.operation name h args)
  | _ => none

/-- Without the refreshes of other handles. -/
def keepRefreshes (p : VarRef Unit L → Bool) : Stmt L → Stmt L
  | .letIn o b body => .letIn o b (keepRefreshes p body)
  | .letRemote o b body => .letRemote o b (keepRefreshes p body)
  | .refreshRemoteOccurance o h => if p h then .refreshRemoteOccurance o h else .nil
  | .ifThen o c t e => .ifThen o c (keepRefreshes p t) (keepRefreshes p e)
  | .whileLoop o name c body => .whileLoop o name c (keepRefreshes p body)
  | .forEach o name body => .forEach o name (keepRefreshes p body)
  | .cons first rest => .cons (keepRefreshes p first) (keepRefreshes p rest)
  | s => s

/-- A phase in a store with maps for the types. `RefreshRemoteOccurance` of a handle of
another type does nothing there: no alias is possible. -/
def forStore [DecidableEq L] (types : List (Ty L)) : Stmt L → Stmt L :=
  keepRefreshes fun h => h.yield ∈ types

section Collapse

theorem append_assoc (s t u : Stmt L) : (s.append t).append u = s.append (t.append u) := by
  induction s with
  | cons first rest _ ih => simp [append, ih]
  | _ => simp [append]

theorem collapse_append (s t : Stmt L) :
    (s.append t).collapse = s.collapse.append t.collapse := by
  induction s with
  | cons first rest _ ih => simp [append, collapse, ih, append_assoc]
  | _ => simp [append, collapse]

@[simp] theorem collapse_collapse (s : Stmt L) : s.collapse.collapse = s.collapse := by
  induction s with
  | cons first rest ihf ihr => simp [collapse, collapse_append, ihf, ihr]
  | _ => rfl

theorem collapse_keepRefreshes_append (p : VarRef Unit L → Bool) (s t : Stmt L) :
    ((s.append t).keepRefreshes p).collapse =
      (s.keepRefreshes p).collapse.append (t.keepRefreshes p).collapse := by
  induction s with
  | cons first rest _ ih => simp [append, keepRefreshes, collapse, ih, append_assoc]
  | nil => simp [append, keepRefreshes, collapse]
  | _ => simp only [append, keepRefreshes, collapse]

theorem collapse_keepRefreshes (p : VarRef Unit L → Bool) (s : Stmt L) :
    (s.collapse.keepRefreshes p).collapse = (s.keepRefreshes p).collapse := by
  induction s with
  | cons first rest ihf ihr =>
      simp only [collapse, collapse_keepRefreshes_append, ihf, ihr, keepRefreshes]
  | _ => rfl

theorem collapse_clearEmpty_append (s t : Stmt L) :
    (clearEmpty (s.append t)).ast.collapse =
      (clearEmpty s).ast.collapse.append (clearEmpty t).ast.collapse := by
  induction s with
  | cons first rest _ ih => simp [append, clearEmpty, collapse, collapse_append, ih, append_assoc]
  | nil => simp [append, clearEmpty, collapse]
  | _ => simp only [append, clearEmpty, collapse, collapse_append, collapse_collapse]

theorem collapse_clearEmpty (s : Stmt L) :
    (clearEmpty s.collapse).ast.collapse = (clearEmpty s).ast.collapse := by
  induction s with
  | cons first rest ihf ihr =>
      simp only [collapse, collapse_clearEmpty_append, ihf, ihr, clearEmpty, collapse_append,
        collapse_collapse]
  | _ => rfl

end Collapse

/-- No statement steps over a binding, and after each operation on an object through a
handle that is kept comes its refresh. -/
inductive Refreshes (kept : VarRef Unit L → Prop) : Stmt L → Prop
  | simple {s : Stmt L} : s.simple = true → s.steps = [] →
      (∀ h, s.handleOf = some h → ¬ kept h) → Refreshes kept s
  | operation (o o' : Origin) (name : OperName) (h : VarRef Unit L) (args : List (VarRef Unit L)) :
      Refreshes kept (.cons (.operation o name h args) (.cons (.refreshRemoteOccurance o' h) .nil))
  | letIn (o : Origin) {b : Binding L L (Expression Unit L)} {body : Stmt L} :
      (∀ h, formHandle b.expr.form = some h → ¬ kept h) → Refreshes kept body →
      Refreshes kept (.letIn o b body)
  | letOperation (o o' : Origin) {b : Binding L L (Expression Unit L)} {body : Stmt L}
      {name : OperName} {h : VarRef Unit L} {args : List (VarRef Unit L)} :
      b.expr.form = .operation name h args → Refreshes kept body →
      Refreshes kept (.cons (.letIn o b body) (.cons (.refreshRemoteOccurance o' h) .nil))
  | letRemote (o : Origin) (b : Binding L L (VarRef Unit L)) {body : Stmt L} :
      Refreshes kept body → Refreshes kept (.letRemote o b body)
  | ifThen (o : Origin) (c : VarRef Unit L) {t e : Stmt L} :
      Refreshes kept t → Refreshes kept e → Refreshes kept (.ifThen o c t e)
  | whileLoop (o : Origin) (name : VarName) (c : VarRef Unit L) {body : Stmt L} :
      Refreshes kept body → Refreshes kept (.whileLoop o name c body)
  | cons {first rest : Stmt L} :
      Refreshes kept first → Refreshes kept rest → Refreshes kept (.cons first rest)
  | regroup {s t : Stmt L} : s.collapse = t.collapse → Refreshes kept s → Refreshes kept t

namespace Refreshes

variable {kept kept' : VarRef Unit L → Prop} {s : Stmt L}

theorem nil : Refreshes kept (.nil : Stmt L) := .simple rfl rfl (by simp [handleOf])

theorem steps (h : Refreshes kept s) : s.steps = [] := by
  induction h with
  | simple _ none _ => exact none
  | regroup same _ ih => rw [← steps_collapse, ← same, steps_collapse, ih]
  | ifThen o c _ _ iht ihe => simp [Stmt.steps, iht, ihe]
  | cons _ _ ihf ihr => simp [Stmt.steps, ihf, ihr]
  | operation => rfl
  | letOperation _ _ _ _ ih => simpa [Stmt.steps] using ih
  | _ => assumption

/-- Where refreshes of some handles go, the others are still refreshed. -/
theorem keepRefreshes {p : VarRef Unit L → Bool} (h : Refreshes kept s)
    (imp : ∀ hd, kept' hd → kept hd) (all : ∀ hd ∈ s.refreshed, kept' hd → p hd = true) :
    Refreshes kept' (s.keepRefreshes p) := by
  induction h with
  | @simple s simple none here =>
      cases s with
      | refreshRemoteOccurance o hd =>
          unfold Stmt.keepRefreshes
          split
          · exact .simple rfl rfl (by simp [handleOf])
          · exact .nil
      | letIn => cases simple
      | letRemote => cases simple
      | ifThen => cases simple
      | whileLoop => cases simple
      | forEach => cases simple
      | cons => cases simple
      | _ => exact .simple simple none fun hd found => mt (imp hd) (here hd found)
  | operation o o' name hd args =>
      by_cases passes : p hd = true
      · simpa [Stmt.keepRefreshes, passes] using .operation o o' name hd args
      · have dropped : ¬ kept' hd := fun inside => passes (all hd (by simp [refreshed]) inside)
        simp only [Stmt.keepRefreshes, passes, Bool.false_eq_true, if_false]
        apply Refreshes.cons _ (.cons .nil .nil)
        apply Refreshes.simple rfl rfl
        intro hd' found
        simp only [handleOf, formHandle, Option.ite_none_right_eq_some, Option.some.injEq] at found
        rwa [← found.2]
  | letIn o here _ ih => exact .letIn o (fun hd found => mt (imp hd) (here hd found)) (ih all)
  | @letOperation o o' b body name hd args form _ ih =>
      have inner := ih fun hd' hh => all hd' (by simp [refreshed, hh])
      by_cases passes : p hd = true
      · simpa [Stmt.keepRefreshes, passes] using .letOperation o o' form inner
      · have dropped : ¬ kept' hd := fun inside => passes (all hd (by simp [refreshed]) inside)
        simp only [Stmt.keepRefreshes, passes, Bool.false_eq_true, if_false]
        apply Refreshes.cons _ (.cons .nil .nil)
        refine .letIn o (fun hd' found => ?_) inner
        simp only [form, formHandle, Option.ite_none_right_eq_some, Option.some.injEq] at found
        rwa [← found.2]
  | letRemote o b _ ih => exact .letRemote o b (ih all)
  | ifThen o c _ _ iht ihe =>
      exact .ifThen o c (iht fun hd hh => all hd (by simp [refreshed, hh]))
        (ihe fun hd hh => all hd (by simp [refreshed, hh]))
  | whileLoop o name c _ ih => exact .whileLoop o name c (ih all)
  | cons _ _ ihf ihr =>
      exact .cons (ihf fun hd hh => all hd (by simp [refreshed, hh]))
        (ihr fun hd hh => all hd (by simp [refreshed, hh]))
  | regroup same _ ih =>
      refine .regroup ?_ (ih fun hd hh => all hd ?_)
      · rw [← collapse_keepRefreshes, same, collapse_keepRefreshes]
      · rwa [← refreshed_collapse, ← same, refreshed_collapse]

theorem clearEmpty (h : Refreshes kept s) : Refreshes kept (clearEmpty s).ast := by
  induction h with
  | @simple s simple none here =>
      cases s with
      | letIn => cases simple
      | letRemote => cases simple
      | ifThen => cases simple
      | whileLoop => cases simple
      | forEach => cases simple
      | cons => cases simple
      | _ => exact .simple simple none here
  | operation o o' name hd args => exact .operation o o' name hd args
  | letIn o here _ ih => exact .letIn o here ih
  | letOperation o o' form _ ih => exact .letOperation o o' form ih
  | letRemote o b _ ih => exact .letRemote o b ih
  | ifThen o c _ _ iht ihe =>
      rw [clearEmpty_ifThen]
      split
      · exact .nil
      · exact .ifThen o c iht ihe
  | whileLoop o name c _ ih => exact .whileLoop o name c ih
  | cons _ _ ihf ihr => exact .regroup (collapse_collapse _).symm (.cons ihf ihr)
  | regroup same _ ih =>
      refine .regroup ?_ ih
      rw [← collapse_clearEmpty, same, collapse_clearEmpty]

end Refreshes

/-- Without steps over bindings, `remove_unused` removes refreshes only. -/
theorem removeUnused_eq_keepRefreshes {requires : List (VarBinding L)} {s : Stmt L}
    (none : s.steps = []) :
    removeUnused requires s = s.keepRefreshes fun h => containsVarOfName h.var requires := by
  induction s with
  | incrementOccurance => cases none
  | incrementRemoteOccurance => cases none
  | ifThen o c t e iht ihe =>
      simp only [Stmt.steps, List.append_eq_nil_iff] at none
      simp only [removeUnused, keepRefreshes, iht none.1, ihe none.2]
  | cons first rest ihf ihr =>
      simp only [Stmt.steps, List.append_eq_nil_iff] at none
      simp only [removeUnused, keepRefreshes, ihf none.1, ihr none.2]
  | letIn o b body ih => simp only [removeUnused, keepRefreshes, ih none]
  | letRemote o b body ih => simp only [removeUnused, keepRefreshes, ih none]
  | whileLoop o name c body ih => simp only [removeUnused, keepRefreshes, ih none]
  | forEach o name body ih => simp only [removeUnused, keepRefreshes, ih none]
  | _ => rfl

end Stmt

section Collected

open Stmt (Refreshes)

variable {L : Type*} [LinearOrder L] {k : L} {inherits provides : List (VarBinding L)}
  {o : Origin} {s : Statement L L} {c : Collected L}

omit [LinearOrder L] in
theorem formVars_mapLabel {Λ Λ' : Type*} (f : Λ → Λ') (e : Form Λ L) :
    formVars (e.mapLabel f) = formVars e := by
  cases e <;> simp [formVars, Form.mapLabel, VarRef.mapLabel]

/-- A phase requires what comes from outside the program. -/
theorem collectPhase_free (single : SingleLabel k s)
    (h : collectPhase k inherits o provides s = .ok c) :
    ∀ x ∈ freeVars s, Builtin.isBuiltinVar x = true ∨ containsVarOfName x provides = true ∨
      containsVarOfName x c.requires = true := by
  induction s generalizing o provides c with
  | letIn label b body ih =>
      obtain ⟨rfl, single⟩ := single
      obtain ⟨-, -, reqs, c', hreqs, hbody, rfl⟩ | ⟨other, -⟩ := collectPhase_letIn h
      · obtain ⟨-, reads⟩ := collectExpr_reads hreqs
        rw [formVars_mapLabel] at reads
        have inner := ih single hbody
        intro x hx
        simp only [containsVarOfName_append, containsVarOfName_cons] at inner ⊢
        obtain hx | hx := List.mem_append.mp hx
        · have := reads x hx
          tauto
        · obtain ⟨hx, unbound⟩ := List.mem_filter.mp hx
          have := inner x hx
          have : b.var ≠ x := Ne.symm (of_decide_eq_true unbound)
          simp only [VarBinding.name] at *
          tauto
      · exact absurd rfl other
  | letRemote label b body ih =>
      obtain ⟨rfl, single⟩ := single
      obtain ⟨-, -, reqs, c', hreqs, hbody, rfl⟩ | ⟨other, -⟩ := collectPhase_letRemote h
      · obtain ⟨-, reads⟩ := collectVar_reads hreqs
        have inner := ih single hbody
        intro x hx
        simp only [containsVarOfName_append, containsVarOfName_cons] at inner ⊢
        obtain rfl | hx := List.mem_cons.mp hx
        · tauto
        · obtain ⟨hx, unbound⟩ := List.mem_filter.mp hx
          have := inner x hx
          have : b.var ≠ x := Ne.symm (of_decide_eq_true unbound)
          simp only [VarBinding.name] at *
          tauto
      · exact absurd rfl other
  | operation label name hd args =>
      obtain ⟨-, reqs, hreqs, rfl⟩ | ⟨other, -⟩ := collectPhase_operation h
      · exact (collectVars_reads hreqs).2
      · exact absurd single other
  | assignment label target e =>
      obtain ⟨-, reqs, hreqs, rfl⟩ | ⟨other, -⟩ := collectPhase_assignment h
      · exact (collectVars_reads hreqs).2
      · exact absurd single other
  | ret label e =>
      obtain ⟨-, reqs, hreqs, rfl⟩ | ⟨other, -⟩ := collectPhase_ret h
      · simpa [freeVars] using (collectVar_reads hreqs).2
      · exact absurd single other
  | accompanyWrite label target =>
      obtain ⟨-, reqs, hreqs, rfl⟩ | ⟨other, -⟩ := collectPhase_accompanyWrite h
      · simpa [freeVars, Target.baseVar] using (collectVar_reads hreqs).2
      · exact absurd single other
  | writeTombstone label e =>
      obtain ⟨-, reqs, hreqs, rfl⟩ | ⟨other, -⟩ := collectPhase_writeTombstone h
      · simpa [freeVars] using (collectVar_reads hreqs).2
      · exact absurd single other
  | ifThen label condition t e iht ihe =>
      obtain ⟨rfl, singleT, singleE⟩ := single
      obtain ⟨-, reqs, ct, ce, hreqs, ht, he, rfl⟩ | ⟨other, -⟩ := collectPhase_ifThen h
      · obtain ⟨-, reads⟩ := collectVar_reads hreqs
        have readsT := iht singleT ht
        have readsE := ihe singleE he
        intro x hx
        simp only [containsVarOfName_append]
        obtain rfl | hx := List.mem_cons.mp hx
        · tauto
        · obtain hx | hx := List.mem_append.mp hx
          · have := readsT x hx
            tauto
          · have := readsE x hx
            tauto
      · exact absurd (le_refl label) other
  | whileLoop label name condition body ih =>
      obtain ⟨rfl, single⟩ := single
      obtain ⟨-, reqs, c', hreqs, hbody, rfl⟩ | ⟨other, -⟩ | ⟨other, -⟩ :=
        collectPhase_whileLoop h
      · obtain ⟨-, reads⟩ := collectVar_reads hreqs
        have inner := ih single hbody
        intro x hx
        simp only [containsVarOfName_append]
        obtain rfl | hx := List.mem_cons.mp hx
        · tauto
        · have := inner x hx
          tauto
      · exact absurd rfl other
      · exact absurd rfl other
  | nil label => simp [freeVars]
  | cons label first rest ihf ihr =>
      obtain ⟨cf, cr, hf, hr, rfl⟩ := collectPhase_cons h
      have readsF := ihf single.1 hf
      have readsR := ihr single.2 hr
      intro x hx
      simp only [containsVarOfName_append]
      obtain hx | hx := List.mem_append.mp hx
      · have := readsF x hx
        tauto
      · have := readsR x hx
        tauto

theorem acts_of_builtin {name : OperName} (h : Builtin.isBuiltinOper name = true) :
    acts name = false := by
  simp only [Builtin.isBuiltinOper, Bool.or_eq_true, decide_eq_true_eq] at h
  obtain rfl | rfl := h
  · decide
  · decide

/-- The splitter refreshes after every operation. -/
theorem collectPhase_refreshes (single : SingleLabel k s)
    (h : collectPhase k inherits o provides s = .ok c) : Refreshes (fun _ => True) c.ast := by
  induction s generalizing o provides c with
  | letIn label b body ih =>
      obtain ⟨rfl, single⟩ := single
      obtain ⟨-, -, reqs, c', -, hbody, rfl⟩ | ⟨other, -⟩ := collectPhase_letIn h
      · have inner := ih single hbody
        unfold letAstIfOperation
        cases form : b.expr.form with
        | operation name hd args =>
            have form' : (b.expr.mapLabel unlabel).form =
                .operation name (hd.mapLabel unlabel) (args.map (VarRef.mapLabel unlabel)) := by
              simp [Expression.mapLabel, form, Form.mapLabel]
            exact .letOperation o o form' inner
        | _ => exact .letIn o (by simp [Expression.mapLabel, form, Form.mapLabel, formHandle]) inner
      · exact absurd rfl other
  | letRemote label b body ih =>
      obtain ⟨rfl, single⟩ := single
      obtain ⟨-, -, reqs, c', -, hbody, rfl⟩ | ⟨other, -⟩ := collectPhase_letRemote h
      · exact .letRemote o _ (ih single hbody)
      · exact absurd rfl other
  | operation label name hd args =>
      obtain ⟨-, reqs, -, rfl⟩ | ⟨other, -⟩ := collectPhase_operation h
      · dsimp only
        split
        · rename_i builtin
          exact .simple rfl rfl (by simp [Stmt.handleOf, formHandle, acts_of_builtin builtin])
        · exact .operation o o name _ _
      · exact absurd single other
  | assignment label target e =>
      obtain ⟨-, reqs, -, rfl⟩ | ⟨other, -⟩ := collectPhase_assignment h
      · exact .simple rfl rfl (by simp [Stmt.handleOf])
      · exact absurd single other
  | ret label e =>
      obtain ⟨-, reqs, -, rfl⟩ | ⟨other, -⟩ := collectPhase_ret h
      · exact .simple rfl rfl (by simp [Stmt.handleOf])
      · exact absurd single other
  | accompanyWrite label target =>
      obtain ⟨-, reqs, -, rfl⟩ | ⟨other, -⟩ := collectPhase_accompanyWrite h
      · exact .simple rfl rfl (by simp [Stmt.handleOf])
      · exact absurd single other
  | writeTombstone label e =>
      obtain ⟨-, reqs, -, rfl⟩ | ⟨other, -⟩ := collectPhase_writeTombstone h
      · exact .simple rfl rfl (by simp [Stmt.handleOf])
      · exact absurd single other
  | ifThen label condition t e iht ihe =>
      obtain ⟨rfl, singleT, singleE⟩ := single
      obtain ⟨-, reqs, ct, ce, -, ht, he, rfl⟩ | ⟨other, -⟩ := collectPhase_ifThen h
      · exact .ifThen o _ (iht singleT ht) (ihe singleE he)
      · exact absurd (le_refl label) other
  | whileLoop label name condition body ih =>
      obtain ⟨rfl, single⟩ := single
      obtain ⟨-, reqs, c', -, hbody, rfl⟩ | ⟨other, -⟩ | ⟨other, -⟩ := collectPhase_whileLoop h
      · exact .whileLoop o name _ (ih single hbody)
      · exact absurd rfl other
      · exact absurd rfl other
  | nil label =>
      rw [collectPhase_nil h]
      exact .nil
  | cons label first rest ihf ihr =>
      obtain ⟨cf, cr, hf, hr, rfl⟩ := collectPhase_cons h
      exact .regroup (Stmt.collapse_collapse _).symm (.cons (ihf single.1 hf) (ihr single.2 hr))

end Collected

/-- In the store of the program, what is left of a phase still refreshes the handles from
outside whose type has a map. -/
theorem finalPhase_refreshes {L : Type} [LinearOrder L] {k : L} {inherits : List (VarBinding L)}
    {prog : Statement L L} {c : Collected L} (single : SingleLabel k prog)
    (h : collectPhase k inherits [] [] prog = .ok c) :
    Stmt.Refreshes (fun hd => Inherited prog hd.var ∧ hd.yield ∈ mapTypes prog)
      ((finalPhase k inherits c).ast.forStore (mapTypes prog)) := by
  have collected := collectPhase_refreshes single h
  have required : ∀ x, Inherited prog x → containsVarOfName x c.requires = true := by
    rintro x ⟨free, constant⟩
    obtain builtin | given | required := collectPhase_free single h x free
    · rw [constant] at builtin
      cases builtin
    · simp [containsVarOfName] at given
    · exact required
  have used : Stmt.Refreshes (fun hd => Inherited prog hd.var) (removeUnused c.requires c.ast) := by
    rw [Stmt.removeUnused_eq_keepRefreshes collected.steps]
    exact collected.keepRefreshes (fun _ _ => trivial) fun hd _ inside => required hd.var inside
  have cleared := used.clearEmpty
  have final : Stmt.Refreshes (fun hd => Inherited prog hd.var) (finalPhase k inherits c).ast := by
    rw [finalPhase_ast, remaining, Stmt.removeUnused_eq_keepRefreshes cleared.steps]
    exact cleared.keepRefreshes (fun _ inside => inside) fun hd hh _ => refreshed_required hd hh
  apply final.keepRefreshes fun hd inside => inside.1
  intro hd _ inside
  simpa using inside.2

end MixT.Split
