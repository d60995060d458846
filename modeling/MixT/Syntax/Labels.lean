import Mathlib.Order.BoundedOrder.Basic
import Mathlib.Order.Lattice

/-! # Labels

Concrete labels form a bounded total order in which information flows down:
`top` flows everywhere and `bottom` only to itself. Type checking also makes
temporary labels and labels that are the lower of two others. -/

namespace MixT

/-- `flows_to` on concrete labels. -/
def FlowsTo {L : Type*} [LE L] (source target : L) : Prop := target ≤ source

instance {L : Type*} [LE L] [DecidableLE L] (a b : L) : Decidable (FlowsTo a b) :=
  inferInstanceAs (Decidable (b ≤ a))

/-- A label of the typed syntax tree. -/
inductive Label (L : Type*)
  | concrete (l : L)
  | temp (seq depth : Int)
  | minOf (left right : Label L)
  deriving DecidableEq, Repr

namespace Label

variable {L : Type*}

/-- `is_temp_label`. -/
def isTemp : Label L → Bool
  | .temp _ _ => true
  | _ => false

theorem isTemp_iff {l : Label L} : l.isTemp = true ↔ ∃ s d, l = .temp s d := by
  cases l <;> simp [isTemp]

/-- `is_min_of`. -/
def isMinOf : Label L → Bool
  | .minOf _ _ => true
  | _ => false

/-- `can_resolve`, with `none` where the label has no such member. -/
def canResolve : Label L → Option Bool
  | .minOf (.minOf a b) (.minOf c d) =>
      match canResolve (.minOf a b), canResolve (.minOf c d) with
      | some x, some y => some (x || y)
      | _, _ => none
  | .minOf (.minOf a b) (.concrete _) => canResolve (.minOf a b)
  | .minOf (.minOf a b) (.temp _ _) => canResolve (.minOf a b)
  | .minOf (.concrete _) (.minOf c d) => canResolve (.minOf c d)
  | .minOf (.temp _ _) (.minOf c d) => canResolve (.minOf c d)
  | .minOf (.temp _ _) (.temp _ _) => some false
  | .minOf (.temp _ _) (.concrete _) => some false
  | .minOf (.concrete _) (.temp _ _) => some false
  | .minOf (.concrete _) (.concrete _) => none
  | .concrete _ => none
  | .temp _ _ => none

/-- No label ever says that it can resolve, so a nested minimum resolves to itself. -/
theorem canResolve_ne_true (l : Label L) : canResolve l ≠ some true := by
  induction l with
  | concrete l => simp [canResolve]
  | temp s d => simp [canResolve]
  | minOf a b iha ihb =>
      cases a <;> cases b <;> simp_all [canResolve]
      split <;> simp_all

variable [LinearOrder L]

/-- `labels::min_of` of two concrete labels. -/
def labelsMinOf (a b : L) : L := if FlowsTo a b then b else a

theorem labelsMinOf_eq (a b : L) : labelsMinOf a b = min a b := by
  unfold labelsMinOf FlowsTo
  by_cases h : b ≤ a
  · simp [h]
  · simp [h, le_of_not_ge h]

/-- `resolve` of the minimum of two labels: two concrete labels give the lower
one, and any other minimum is left as it is. -/
def resolve : Label L → Label L → Label L
  | .concrete a, .concrete b => .concrete (labelsMinOf a b)
  | a, b => .minOf a b

/-- `label_replace`: put a label for a temporary one, resolving on the way up. -/
def labelReplace (seq depth : Int) (new : Label L) : Label L → Label L
  | .concrete l => .concrete l
  | .temp s d => if s = seq ∧ d = depth then new else .temp s d
  | .minOf a b => resolve (labelReplace seq depth new a) (labelReplace seq depth new b)

/-- The meaning of a label under labels for the temporary ones. -/
def eval (ρ : Int → Int → L) : Label L → L
  | .concrete l => l
  | .temp s d => ρ s d
  | .minOf a b => min (eval ρ a) (eval ρ b)

section Eval

variable (ρ : Int → Int → L)

@[simp] theorem eval_concrete (l : L) : eval ρ (.concrete l) = l := rfl

@[simp] theorem eval_temp (s d : Int) : eval ρ (.temp s d : Label L) = ρ s d := rfl

@[simp] theorem eval_minOf (a b : Label L) :
    eval ρ (.minOf a b) = min (eval ρ a) (eval ρ b) := rfl

@[simp] theorem eval_resolve (a b : Label L) :
    eval ρ (resolve a b) = min (eval ρ a) (eval ρ b) := by
  cases a <;> cases b <;> simp [resolve, labelsMinOf_eq]

end Eval

section ResolvedMin

variable [BoundedOrder L]

/-- `resolved_label_min`. -/
def resolvedMin (a b : Label L) : Label L :=
  if a = .concrete ⊥ ∨ b = .concrete ⊥ then .concrete ⊥ else resolve a b

@[simp] theorem eval_resolvedMin (ρ : Int → Int → L) (a b : Label L) :
    eval ρ (resolvedMin a b) = min (eval ρ a) (eval ρ b) := by
  unfold resolvedMin
  split
  · rename_i h
    rcases h with rfl | rfl <;> simp
  · simp

end ResolvedMin

end Label

end MixT
