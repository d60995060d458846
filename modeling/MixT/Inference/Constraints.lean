import MixT.Syntax.Typecheck
import MixT.Library.Sorting
import Mathlib.Data.List.Dedup

/-! # Flow constraints

Inference collects constraints between the labels of a typed tree, splits those
whose source is a minimum, and sorts them. The operands of a flattened tree are
variables, which have no constraints of their own. -/

namespace MixT

namespace Label

variable {L : Type*}

/-- The temporary and concrete labels that a label is the minimum of. -/
def leaves : Label L → List (Label L)
  | .concrete l => [.concrete l]
  | .temp s d => [.temp s d]
  | .minOf a b => leaves a ++ leaves b

/-- The concrete labels in a label. -/
def properLabels : Label L → List L
  | .concrete l => [l]
  | .temp _ _ => []
  | .minOf a b => properLabels a ++ properLabels b

@[simp] theorem concrete_mem_leaves {l : Label L} {c : L} :
    .concrete c ∈ l.leaves ↔ c ∈ l.properLabels := by
  induction l with
  | concrete l => simp [leaves, properLabels]
  | temp s d => simp [leaves, properLabels]
  | minOf a b iha ihb => simp [leaves, properLabels, iha, ihb]

theorem mem_leaves_not_minOf {l u : Label L} (h : u ∈ l.leaves) : u.isMinOf = false := by
  induction l with
  | concrete c => simp_all [leaves, isMinOf]
  | temp s d => simp_all [leaves, isMinOf]
  | minOf a b iha ihb =>
      obtain h | h := List.mem_append.mp h
      · exact iha h
      · exact ihb h

theorem exists_leaf (l : Label L) : ∃ u, u ∈ l.leaves := by
  induction l with
  | concrete c => exact ⟨_, List.mem_singleton_self _⟩
  | temp s d => exact ⟨_, List.mem_singleton_self _⟩
  | minOf a b iha ihb =>
      obtain ⟨u, hu⟩ := iha
      exact ⟨u, List.mem_append_left _ hu⟩

variable [LinearOrder L]

theorem le_eval_iff (ρ : Int → Int → L) {l : Label L} {x : L} :
    x ≤ l.eval ρ ↔ ∀ u ∈ l.leaves, x ≤ u.eval ρ := by
  induction l with
  | concrete c => simp [leaves]
  | temp s d => simp [leaves]
  | minOf a b iha ihb => simp [leaves, iha, ihb, or_imp, forall_and]

theorem eval_le_iff (ρ : Int → Int → L) {l : Label L} {x : L} :
    l.eval ρ ≤ x ↔ ∃ u ∈ l.leaves, u.eval ρ ≤ x := by
  induction l with
  | concrete c => simp [leaves]
  | temp s d => simp [leaves]
  | minOf a b iha ihb => simp [leaves, iha, ihb, or_and_right, exists_or]

end Label

namespace Inference

/-- Why a constraint was collected. -/
inductive Why
  | boundExpression
  | boundExpressionPc
  | isValidExprHandle
  | assignment
  | assignmentPc
  | letRemoteExprHandle
  | operationExprHandle
  | operationArgsHandle
  | thisSeemsWrong
  deriving DecidableEq, Repr

/-- `must_flow_to<high, low, why>`. -/
structure Constraint (L : Type*) where
  high : Label L
  low : Label L
  why : Why
  deriving DecidableEq, Repr

inductive InferError
  | flowViolation
  | noConcreteLabel
  deriving DecidableEq, Repr

section Collect

variable {L : Type*} [LinearOrder L] [BoundedOrder L]

/-- The flow of an operand's label to the label of a handle. -/
def flowToHandle (source : Label L) (handle : Ty L) (why : Why) : List (Constraint L) :=
  match handle.label with
  | some handleLabel => [⟨source, .concrete handleLabel, why⟩]
  | none => []

/-- `label_min_of` with the label of a handle. -/
def minOfHandle (l : Label L) (handle : Ty L) : Label L :=
  match handle.label with
  | some handleLabel => .minOf l (.concrete handleLabel)
  | none => l

/-- `_collect_operation_constraints`. -/
def collectOperation (h : VarRef (Label L) L) (args : List (VarRef (Label L) L)) :
    List (Constraint L) :=
  flowToHandle h.label h.yield .operationExprHandle ++
    args.flatMap fun arg => flowToHandle arg.label h.yield .operationArgsHandle

def collectExpr (e : Expression (Label L) L) : List (Constraint L) :=
  match e.form with
  | .isValid h => flowToHandle h.label h.yield .isValidExprHandle
  | .operation _ h args => collectOperation h args
  | _ => []

/-- The constraints of a binding. -/
def collectBinding (pc bound label : Label L) : List (Constraint L) :=
  [⟨bound, label, .boundExpression⟩, ⟨pc, label, .boundExpressionPc⟩]

/-- `collect_constraints`. Tracking is inserted after inference, so its statements
are never met here. -/
def collectConstraints (pc : Label L) : Statement (Label L) L → List (Constraint L)
  | .letIn _ b body =>
      collectBinding pc b.expr.label b.label ++ collectExpr b.expr ++ collectConstraints pc body
  | .letRemote _ b body =>
      let bindingPc := minOfHandle (.minOf pc b.expr.label) b.expr.yield
      -- the body keeps the label of the environment, unlike in type checking
      collectBinding bindingPc b.expr.label b.label ++ collectConstraints pc body ++
        flowToHandle b.expr.label b.expr.yield .letRemoteExprHandle
  | .operation _ _ h args => collectOperation h args
  | .assignment _ target e =>
      [⟨e.label, target.label, .assignment⟩, ⟨pc, target.label, .assignmentPc⟩]
  | .ret _ _ => []
  | .accompanyWrite _ _ => []
  | .writeTombstone _ _ => []
  | .ifThen l _ thenBranch elseBranch =>
      collectConstraints (.minOf pc l) thenBranch ++ collectConstraints (.minOf pc l) elseBranch
  | .whileLoop l _ _ body => collectConstraints (.minOf pc l) body
  | .nil _ => []
  | .cons _ first rest => collectConstraints pc first ++ collectConstraints pc rest

end Collect

section Collapse

variable {L : Type*} [LinearOrder L]

/-- `pick_min_match` of two labels that may be missing. -/
def pickMinMatch : Option L → Option L → Option L
  | none, b => b
  | some a, none => some a
  | some a, some b => if FlowsTo b a then some a else some b

/-- `find_concrete_label`: the lowest concrete label of a minimum, which must have
one at every level. -/
def findConcreteLabel : Label L → Except InferError (Option L)
  | .concrete l => .ok (some l)
  | .temp _ _ => .ok none
  | .minOf a b => do
      match pickMinMatch (← findConcreteLabel a) (← findConcreteLabel b) with
      | some l => .ok (some l)
      | none => .error .noConcreteLabel

/-- The target of a collapsed constraint: a minimum gives way to its concrete label. -/
def collapseTarget (target : Label L) : Except InferError (Label L) := do
  match target, ← findConcreteLabel target with
  | .concrete a, some b => .ok (if FlowsTo b a then .concrete a else .concrete b)
  | _, some b => .ok (.concrete b)
  | target, none => .ok target

/-- `collapse_constraints`: one constraint for each label that the source is the
minimum of. -/
def collapseConstraints : List (Constraint L) → Except InferError (List (Constraint L))
  | [] => .ok []
  | c :: rest => do
      let target ← collapseTarget c.low
      let collapsed ← collapseConstraints rest
      .ok (c.high.leaves.map (fun source => ⟨source, target, c.why⟩) ++ collapsed)

/-- `minimize_constraints`: as a set, without the reflexive ones. -/
def minimizeConstraints (constraints : List (Constraint L)) : List (Constraint L) :=
  constraints.dedup.filter fun c => c.high ≠ c.low

@[simp] theorem mem_minimizeConstraints {constraints : List (Constraint L)} {c : Constraint L} :
    c ∈ minimizeConstraints constraints ↔ c ∈ constraints ∧ c.high ≠ c.low := by
  simp [minimizeConstraints]

end Collapse

section ProperLabels

variable {L : Type*} [LinearOrder L] (sorting : Library.ComparisonSort)

/-- `label_lte`. -/
def labelLte (a b : L) : Bool := FlowsTo b a

@[simp] theorem labelLte_iff {a b : L} : labelLte a b = true ↔ a ≤ b :=
  decide_eq_true_iff

/-- `collect_proper_labels`: the concrete labels of a tree, lowest first. -/
def collectProperLabels (ast : Statement (Label L) L) : List L :=
  sorting.sort labelLte (ast.labels.flatMap Label.properLabels).dedup

theorem mem_collectProperLabels {ast : Statement (Label L) L} {c : L} :
    c ∈ collectProperLabels sorting ast ↔ ∃ l ∈ ast.labels, c ∈ l.properLabels := by
  simp [collectProperLabels, Library.ComparisonSort.mem_sort]

theorem collectProperLabels_nodup (ast : Statement (Label L) L) :
    (collectProperLabels sorting ast).Nodup :=
  (sorting.perm _ _).nodup_iff.mpr (List.nodup_dedup _)

theorem collectProperLabels_sorted (ast : Statement (Label L) L) :
    (collectProperLabels sorting ast).Pairwise (· < ·) := by
  have ordered : (collectProperLabels sorting ast).Pairwise fun a b => labelLte a b = true := by
    apply sorting.sorted
    · intro a _ b _
      simpa using le_total a b
    · intro a _ b _ c _ hab hbc
      simp only [labelLte_iff] at *
      exact hab.trans hbc
  refine (ordered.and (collectProperLabels_nodup sorting ast)).imp ?_
  rintro a b ⟨hab, hne⟩
  exact lt_of_le_of_ne (labelLte_iff.mp hab) hne

end ProperLabels

end Inference

end MixT
