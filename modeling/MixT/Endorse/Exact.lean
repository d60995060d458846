import MixT.Endorse.Dependence

/-! # When the right variables are relabelled

What relabelling does to the labels of variables, and the exact condition under which the
variables relabelled are those that endorsements depend on. -/

namespace MixT.Endorse

open MixT.Library.Worklist PreLabel

variable {L : Type*}

/-! ## The labels of variables -/

section Labelled

variable {Λ : Type*}

def varLabel (x : VarRef Λ L) : VarName × Λ := (x.var, x.label)

/-- The variables of a statement with their labels, at each binding and each reference. -/
def labelled : Statement Λ L → List (VarName × Λ)
  | .letIn _ b body => (b.var, b.label) :: ((operands b.expr).map varLabel ++ labelled body)
  | .letRemote _ b body => (b.var, b.label) :: varLabel b.expr :: labelled body
  | .operation _ _ h args => (h :: args).map varLabel
  | .assignment _ target e => [varLabel target.base, varLabel e]
  | .ret _ e => [varLabel e]
  | .accompanyWrite _ target => [varLabel target.base]
  | .writeTombstone _ e => [varLabel e]
  | .ifThen _ c t e => varLabel c :: (labelled t ++ labelled e)
  | .whileLoop _ _ c body => varLabel c :: labelled body
  | .nil _ => []
  | .cons _ first rest => labelled first ++ labelled rest

end Labelled

variable [LinearOrder L] [BoundedOrder L]

section Relabelling

variable (all : List Elem)

/-- The label of a variable after relabelling. -/
def relabelled (p : VarName × PreLabel L) : VarName × PreLabel L :=
  (p.1, relabelBound all p.1 p.2)

/-- The label of a reference is the one that relabelling gives it. -/
def Kept (x : VarRef (PreLabel L) L) : Prop := relabelled all (varLabel x) = varLabel x

@[simp] theorem varLabel_relabelVar (x : VarRef (PreLabel L) L) :
    varLabel (relabelVar all x) = relabelled all (varLabel x) := by
  by_cases member : some x.var ∈ all <;>
    simp [varLabel, relabelVar, relabelled, relabelBound, member]

/-- What is not pre-endorsed after relabelling has the label it had. -/
theorem kept_of_plain {x : VarRef (PreLabel L) L}
    (h : (relabelVar all x).label.isPreEndorsed = false) : Kept all x := by
  by_cases member : some x.var ∈ all
  · rw [relabelVar, if_pos member] at h
    simp [Kept, relabelled, varLabel, relabelBound, member, preEndorseNotop_plain h]
  · simp [Kept, relabelled, varLabel, relabelBound, member]

theorem map_kept {args : List (VarRef (PreLabel L) L)} (h : ∀ x ∈ args, Kept all x) :
    (args.map varLabel).map (relabelled all) = args.map varLabel := by
  rw [List.map_map]
  exact List.map_congr_left h

/-- The references of an operation that is not refused are none of the relabelled ones. -/
theorem relabelOperation_kept {h : VarRef (PreLabel L) L} {args : List (VarRef (PreLabel L) L)}
    (accepted : relabelOperation all h args = true) : ∀ x ∈ h :: args, Kept all x := by
  intro x mem
  have plain := List.all_eq_true.mp accepted x mem
  exact kept_of_plain all (by simpa using plain)

theorem operands_relabelExpr {e e' : Expression (PreLabel L) L}
    (h : relabelExpr all e = some e') :
    (operands e').map varLabel = ((operands e).map varLabel).map (relabelled all) ∧
      ∀ l x, e'.form ≠ .endorse l x := by
  obtain ⟨label, yield, form⟩ := e
  cases form with
  | operation name hndl args =>
      simp only [relabelExpr] at h
      split at h
      · rename_i accepted
        cases h
        exact ⟨(map_kept all (relabelOperation_kept all accepted)).symm, by simp⟩
      · cases h
  | isValid hndl =>
      obtain ⟨handleLabel, -, h⟩ := Option.bind_eq_some_iff.mp h
      cases h
      simp [operands]
  | varReference x =>
      cases h
      refine ⟨?_, by simp⟩
      exact congrArg (fun p => [p]) (varLabel_relabelVar all ⟨label, yield, x⟩)
  | endorse l x =>
      cases h
      refine ⟨?_, by simp⟩
      exact congrArg (fun p => [p]) (varLabel_relabelVar all x)
  | _ =>
      cases h
      simp [operands]

theorem base_relabelTarget (target : Target (PreLabel L) L) :
    varLabel (relabelTarget all target).base = relabelled all (varLabel target.base) := by
  cases target <;> simp [relabelTarget, Target.base]

/-- The references of every assignment have the labels that relabelling gives them. -/
def AssignmentsKept (s : Statement (PreLabel L) L) : Prop :=
  ∀ a ∈ assignments s, Kept all a.1.base ∧ Kept all a.2

theorem assignmentsKept_append {s s₁ s₂ : Statement (PreLabel L) L}
    (h : assignments s = assignments s₁ ++ assignments s₂) :
    AssignmentsKept all s ↔ AssignmentsKept all s₁ ∧ AssignmentsKept all s₂ := by
  simp only [AssignmentsKept, h, List.mem_append, or_imp, forall_and]
  tauto

theorem append_eq_iff {A : Type*} {l r l' r' : List A} (h : l.length = l'.length) :
    l ++ r = l' ++ r' ↔ l = l' ∧ r = r' := by
  constructor
  · intro same
    exact List.append_inj same h
  · rintro ⟨rfl, rfl⟩
    rfl

/-- Relabelling leaves no endorsement, and relabels every occurrence of the variables
exactly when it has nothing to relabel in the assignments, which it returns as they were. -/
theorem endorseRelabel_some {s out : Statement (PreLabel L) L}
    (h : endorseRelabel all s = some out) :
    out.EndorseFree ∧ (labelled out).length = (labelled s).length ∧
      (labelled out = (labelled s).map (relabelled all) ↔ AssignmentsKept all s) := by
  induction s generalizing out with
  | letIn l b body ih =>
      obtain ⟨expr, hexpr, h⟩ := Option.bind_eq_some_iff.mp h
      obtain ⟨body', hbody, h⟩ := Option.bind_eq_some_iff.mp h
      cases h
      obtain ⟨free, length, labels⟩ := ih hbody
      obtain ⟨operands', no_endorse⟩ := operands_relabelExpr all hexpr
      refine ⟨⟨no_endorse, free⟩, ?_, ?_⟩
      · simp [labelled, operands', length]
      · simp only [labelled, List.map_cons, List.map_append, operands', relabelled,
          List.cons.injEq, true_and, List.append_cancel_left_eq]
        exact labels
  | letRemote l b body ih =>
      obtain ⟨body', hbody, h⟩ := Option.bind_eq_some_iff.mp h
      cases h
      obtain ⟨free, length, labels⟩ := ih hbody
      refine ⟨free, by simp [labelled, length], ?_⟩
      simp only [labelled, List.map_cons, varLabel_relabelVar, relabelled, List.cons.injEq,
        true_and]
      exact labels
  | operation l name hndl args =>
      simp only [endorseRelabel] at h
      split at h
      · rename_i accepted
        cases h
        have kept := map_kept all (relabelOperation_kept all accepted)
        refine ⟨trivial, rfl, iff_of_true kept.symm ?_⟩
        simp [AssignmentsKept, assignments]
      · cases h
  | assignment l target e =>
      simp only [endorseRelabel] at h
      split at h
      · cases h
        refine ⟨trivial, rfl, ?_⟩
        simp [labelled, AssignmentsKept, assignments, Kept, eq_comm]
      · cases h
  | ret l e =>
      cases h
      simp [labelled, AssignmentsKept, assignments, Statement.EndorseFree]
  | accompanyWrite l target =>
      cases h
      simp [labelled, AssignmentsKept, assignments, Statement.EndorseFree, base_relabelTarget]
  | writeTombstone l e =>
      cases h
      simp [labelled, AssignmentsKept, assignments, Statement.EndorseFree]
  | ifThen l c t e iht ihe =>
      obtain ⟨t', ht, h⟩ := Option.bind_eq_some_iff.mp h
      obtain ⟨e', he, h⟩ := Option.bind_eq_some_iff.mp h
      cases h
      obtain ⟨freeThen, lengthThen, labelsThen⟩ := iht ht
      obtain ⟨freeElse, lengthElse, labelsElse⟩ := ihe he
      refine ⟨⟨freeThen, freeElse⟩, by simp [labelled, lengthThen, lengthElse], ?_⟩
      rw [assignmentsKept_append all rfl, ← labelsThen, ← labelsElse]
      simp only [labelled, List.map_cons, List.map_append, varLabel_relabelVar, List.cons.injEq,
        true_and]
      exact append_eq_iff (by simp [lengthThen])
  | whileLoop l name c body ih =>
      obtain ⟨body', hbody, h⟩ := Option.bind_eq_some_iff.mp h
      cases h
      obtain ⟨free, length, labels⟩ := ih hbody
      refine ⟨free, by simp [labelled, length], ?_⟩
      simp only [labelled, List.map_cons, varLabel_relabelVar, List.cons.injEq, true_and]
      exact labels
  | nil l =>
      cases h
      simp [labelled, AssignmentsKept, assignments, Statement.EndorseFree]
  | cons l first rest ihf ihr =>
      obtain ⟨first', hfirst, h⟩ := Option.bind_eq_some_iff.mp h
      obtain ⟨rest', hrest, h⟩ := Option.bind_eq_some_iff.mp h
      cases h
      obtain ⟨freeFirst, lengthFirst, labelsFirst⟩ := ihf hfirst
      obtain ⟨freeRest, lengthRest, labelsRest⟩ := ihr hrest
      refine ⟨⟨freeFirst, freeRest⟩, by simp [labelled, lengthFirst, lengthRest], ?_⟩
      rw [assignmentsKept_append all rfl, ← labelsFirst, ← labelsRest]
      simp only [labelled, List.map_append]
      exact append_eq_iff (by simp [lengthFirst])

end Relabelling

/-! ## The pass as a whole -/

/-- A static assertion of the pass fails. -/
def Rejected (s : Statement (PreLabel L) L) : Prop :=
  ∃ n all, preEndorseRounds s n (start none) = some ⟨[], all⟩ ∧ endorseRelabel all s = none

/-- The worklist gets empty; what was collected is what endorsements depend on; the labels of
exactly these variables become pre-endorse labels wherever they occur; and no endorsement is
left. -/
def PreEndorses (s : Statement (PreLabel L) L) : Prop :=
  ∃ n all out, preEndorseRounds s n (start none) = some ⟨[], all⟩ ∧
    endorseRelabel all s = some out ∧ (∀ x, some x ∈ all ↔ Depends s x) ∧
      labelled out = (labelled s).map (relabelled all) ∧ out.EndorseFree

/-- Where the pass does this: the ifs and whiles it has a case for see no endorsement and no
member; the rules it has no case for add nothing to the members; and assignments have no
label to change. -/
structure Meets (s : Statement (PreLabel L) L) : Prop where
  unseen : Unseen s
  assigned : ∀ a ∈ assignments s, BoundTo s a.1.baseVar → BoundTo s a.2.var
  guarded : ∀ g ∈ guards s, Within (BoundTo s) g.inside → BoundTo s g.condition
  kept : ∀ a ∈ assignments s, ∀ x, x = a.1.base ∨ x = a.2 → BoundTo s x.var →
    preEndorseNotop x.label = x.label

section Members

variable {s : Statement (PreLabel L) L}

/-- A reference has the label relabelling gives it exactly when it is no member, or its label
does not change. -/
theorem kept_iff {n : ℕ} {all : List Elem}
    (ends : preEndorseRounds s n (start none) = some ⟨[], all⟩) (x : VarRef (PreLabel L) L) :
    Kept all x ↔ (BoundTo s x.var → preEndorseNotop x.label = x.label) := by
  rw [← preEndorse_all ends x.var]
  by_cases member : some x.var ∈ all <;>
    simp [Kept, relabelled, varLabel, relabelBound, member]

theorem assignmentsKept_iff {n : ℕ} {all : List Elem}
    (ends : preEndorseRounds s n (start none) = some ⟨[], all⟩) :
    AssignmentsKept all s ↔ ∀ a ∈ assignments s, ∀ x, x = a.1.base ∨ x = a.2 →
      BoundTo s x.var → preEndorseNotop x.label = x.label := by
  simp only [AssignmentsKept, kept_iff ends]
  constructor
  · rintro kept a mem x (rfl | rfl)
    · exact (kept a mem).1
    · exact (kept a mem).2
  · intro kept a mem
    exact ⟨kept a mem _ (Or.inl rfl), kept a mem _ (Or.inr rfl)⟩

end Members

/-- For every tree that no static assertion of the pass rejects: the pass ends with exactly
the variables that endorsements depend on, and relabels them and no others, if and only if
its conditions are met. -/
theorem preEndorses_iff_meets (s : Statement (PreLabel L) L) (accepted : ¬ Rejected s) :
    PreEndorses s ↔ Meets s := by
  constructor
  · rintro ⟨n, all, out, ends, relabels, exactly, labels, -⟩
    have same : ∀ x, BoundTo s x ↔ Depends s x := by
      intro x
      rw [← exactly, preEndorse_all ends]
    obtain ⟨assigned, guarded⟩ := boundTo_iff_depends.mp same
    have kept := (endorseRelabel_some all relabels).2.2.mp labels
    exact ⟨(preEndorse_ends_iff s).mp ⟨n, all, ends⟩, assigned, guarded,
      (assignmentsKept_iff ends).mp kept⟩
  · rintro ⟨unseen, assigned, guarded, kept⟩
    obtain ⟨n, all, ends⟩ := (preEndorse_ends_iff s).mpr unseen
    cases relabels : endorseRelabel all s with
    | none => exact absurd ⟨n, all, ends, relabels⟩ accepted
    | some out =>
        obtain ⟨free, -, labels⟩ := endorseRelabel_some all relabels
        refine ⟨n, all, out, ends, relabels, ?_, ?_, free⟩
        · intro x
          rw [preEndorse_all ends, boundTo_iff_depends.mpr ⟨assigned, guarded⟩]
        · exact labels.mpr ((assignmentsKept_iff ends).mpr kept)

/-! ## Programs -/

open Inference (FourLabels causal strong)

def aName : VarName := .ident ['a']

def bName : VarName := .ident ['b']

def xName : VarName := .ident ['x']

def yName : VarName := .ident ['y']

/-- An integer variable of label causal. -/
def causalVar (x : VarName) : VarRef (PreLabel FourLabels) FourLabels := ⟨.plain causal, .int, x⟩

/-- `var y = x.endorse(strong), return y`. -/
def endorseX : Statement (PreLabel FourLabels) FourLabels :=
  .letIn (.plain strong) ⟨.plain strong, .int, yName, ⟨.plain strong, .int,
    .endorse strong (causalVar xName)⟩⟩ (.ret (.plain 0) ⟨.plain strong, .int, yName⟩)

/-- `var x = a * b, var y = x.endorse(strong), return y`. -/
def endorseProduct : Statement (PreLabel FourLabels) FourLabels :=
  .letIn (.plain causal) ⟨.plain causal, .int, xName, ⟨.plain causal, .int,
    .binOp .times (causalVar aName) (causalVar bName)⟩⟩ endorseX

theorem endorseProduct_preEndorses : PreEndorses endorseProduct := by
  apply (preEndorses_iff_meets endorseProduct _).mpr
  · exact ⟨nofun, nofun, nofun, nofun⟩
  · rintro ⟨n, all, -, rejected⟩
    cases rejected

/-- `if (c) { var y = x.endorse(strong), return y }`. -/
def endorseInIf : Statement (PreLabel FourLabels) FourLabels :=
  .ifThen (.plain causal) ⟨.plain causal, .bool, .ident ['c']⟩ endorseX (.nil (.plain causal))

/-- `var x = a, x = b, var y = x.endorse(strong), return y`. -/
def endorseAssigned : Statement (PreLabel FourLabels) FourLabels :=
  .letIn (.plain causal) ⟨.plain causal, .int, xName, ⟨.plain causal, .int,
      .varReference aName⟩⟩
    (.cons (.plain ⊤) (.assignment (.plain causal) (.var (causalVar xName)) (causalVar bName))
      (.cons (.plain ⊤) endorseX (.nil (.plain ⊤))))

theorem endorseAssigned_not_boundTo : ¬ BoundTo endorseAssigned bName := by
  intro bound
  cases bound with
  | endorsed mem => exact absurd mem (by decide)
  | binding mem _ ref =>
      simp only [endorseAssigned, endorseX, bindings, List.mem_cons, List.append_nil,
        List.nil_append, List.not_mem_nil, or_false, Prod.mk.injEq] at mem
      rcases mem with ⟨-, rfl⟩ | ⟨-, rfl⟩ <;> exact absurd ref (by decide)

/-- The pass does not compile for the first, and misses what is assigned in the second. -/
theorem endorseInIf_endorseAssigned_wrong :
    (¬ Rejected endorseInIf ∧ ¬ PreEndorses endorseInIf) ∧
      ¬ Rejected endorseAssigned ∧ ¬ PreEndorses endorseAssigned := by
  have unending : ¬ ∃ n all, preEndorseRounds endorseInIf n (start none) = some ⟨[], all⟩ := by
    rw [preEndorse_ends_iff]
    intro unseen
    exact unseen _ List.mem_cons_self rfl (Or.inl (by decide))
  refine ⟨⟨?_, ?_⟩, ?_, ?_⟩
  · rintro ⟨n, all, ends, -⟩
    exact unending ⟨n, all, ends⟩
  · rintro ⟨n, all, out, ends, -⟩
    exact unending ⟨n, all, ends⟩
  · rintro ⟨n, all, ends, rejected⟩
    have missing : some bName ∉ all := by
      rw [preEndorse_all ends]
      exact endorseAssigned_not_boundTo
    simp [endorseAssigned, endorseX, endorseRelabel, relabelExpr, relabelVar, causalVar, missing,
      isPreEndorsed] at rejected
  · rintro ⟨n, all, out, ends, -, exactly, -⟩
    have endorses : Depends endorseAssigned xName := Depends.endorsed (by decide)
    have assigned : (Target.var (causalVar xName), causalVar bName) ∈
        assignments endorseAssigned := List.mem_cons_self
    have depends : Depends endorseAssigned bName := Depends.assignment assigned endorses
    rw [← exactly, preEndorse_all ends] at depends
    exact endorseAssigned_not_boundTo depends

end MixT.Endorse
