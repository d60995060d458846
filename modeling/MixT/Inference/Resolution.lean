import MixT.Inference.Soundness
import Mathlib.Order.Bounds.Basic

/-! # Resolving the lower of two labels

`resolve` of a minimum with nested minimums asks `can_resolve`, and the label
of two concrete ones has no such member. So resolution is a partial function:
where the member is missing the program does not compile. -/

namespace MixT.Label

variable {L : Type*} [LinearOrder L]

/-- `resolve`; a label that is not a minimum stands for itself. The branch where
`can_resolve` is true is left out: it is never taken, by `canResolve_ne_true`. -/
def resolution : Label L → Option (Label L)
  | .minOf (.concrete a) (.concrete b) => some (.concrete (labelsMinOf a b))
  | .minOf a b => if (minOf a b).canResolve = some false then some (.minOf a b) else none
  | l => some l

/-- `_label_replace`: a minimum is put together again by resolving it. -/
def replace (seq depth : Int) (new : Label L) : Label L → Option (Label L)
  | .concrete l => some (.concrete l)
  | .temp s d => some (if s = seq ∧ d = depth then new else .temp s d)
  | .minOf a b => do resolution (.minOf (← replace seq depth new a) (← replace seq depth new b))

/-- `resolved_label_min`: the minimum has to resolve also where it is not used. -/
def resolvedLabelMin [BoundedOrder L] (a b : Label L) : Option (Label L) :=
  (resolution (.minOf a b)).map fun r =>
    if a = .concrete ⊥ ∨ b = .concrete ⊥ then .concrete ⊥ else r

/-- No minimum of two concrete labels is left in the label. -/
def NoBareMin : Label L → Prop
  | .minOf (.concrete _) (.concrete _) => False
  | .minOf a b => NoBareMin a ∧ NoBareMin b
  | _ => True

/-- A concrete label, or the minimum of two. -/
def Settled (t : Label L) : Prop :=
  (∃ a, t = .concrete a) ∨ ∃ a b, t = .minOf (.concrete a) (.concrete b)

/-- A minimum of two concrete labels is at most the outermost one. -/
def Resolvable (t : Label L) : Prop := Settled t ∨ NoBareMin t

/-! ## Where resolution is defined -/

@[simp] theorem resolution_concrete (a : L) :
    resolution (.concrete a) = some (.concrete a) := rfl

@[simp] theorem resolution_temp (s d : Int) :
    resolution (.temp s d : Label L) = some (.temp s d) := rfl

@[simp] theorem resolution_bare (a b : L) :
    resolution (.minOf (.concrete a) (.concrete b)) = some (.concrete (min a b)) := by
  rw [resolution, labelsMinOf_eq]

omit [LinearOrder L] in
/-- A minimum says that it cannot resolve exactly when no minimum of two concrete labels,
which says nothing, is left in it. -/
theorem canResolve_false_iff {t : Label L} (h : t.isMinOf = true) :
    canResolve t = some false ↔ NoBareMin t := by
  induction t with
  | concrete l => cases h
  | temp s d => cases h
  | minOf a b iha ihb =>
      -- The cases are those of the specialisations, by the form of the two operands.
      cases a with
      | concrete l => cases b <;> simp_all [canResolve, NoBareMin, isMinOf]
      | temp s d => cases b <;> simp_all [canResolve, NoBareMin, isMinOf]
      | minOf a₁ a₂ =>
          have left := iha rfl
          cases b with
          | concrete l => simp [canResolve, NoBareMin, left]
          | temp s d => simp [canResolve, NoBareMin, left]
          | minOf b₁ b₂ =>
              have right := ihb rfl
              have left_not := canResolve_ne_true (minOf a₁ a₂)
              have right_not := canResolve_ne_true (minOf b₁ b₂)
              rw [canResolve, NoBareMin, ← left, ← right]
              · cases canResolve (minOf a₁ a₂) <;> cases canResolve (minOf b₁ b₂) <;> simp_all
              · simp

omit [LinearOrder L] in
theorem noBareMin_minOf {a b : Label L} :
    NoBareMin (minOf a b) ↔
      NoBareMin a ∧ NoBareMin b ∧ ¬ ∃ x y, a = .concrete x ∧ b = .concrete y := by
  cases a <;> cases b <;> simp [NoBareMin]

theorem resolution_nested {a b : Label L} (h : ¬ ∃ x y, a = .concrete x ∧ b = .concrete y) :
    resolution (.minOf a b) =
      if (minOf a b).canResolve = some false then some (.minOf a b) else none := by
  rw [resolution]
  rintro x y rfl rfl
  exact h ⟨x, y, rfl, rfl⟩

theorem resolution_eq_self {t : Label L} (h : NoBareMin t) : resolution t = some t := by
  cases t with
  | concrete l => rfl
  | temp s d => rfl
  | minOf a b =>
      have nested : ¬ ∃ x y, a = .concrete x ∧ b = .concrete y := by
        rintro ⟨x, y, rfl, rfl⟩
        exact h
      rw [resolution_nested nested, if_pos ((canResolve_false_iff rfl).mpr h)]

/-- What resolution gives has no minimum of two concrete labels left. -/
theorem resolution_some {t r : Label L} (h : resolution t = some r) :
    Resolvable t ∧ NoBareMin r ∧ ∀ ρ, eval ρ r = eval ρ t := by
  by_cases bare : NoBareMin t
  · rw [resolution_eq_self bare] at h
    cases h
    exact ⟨Or.inr bare, bare, fun _ => rfl⟩
  · cases t with
    | concrete l => exact absurd trivial bare
    | temp s d => exact absurd trivial bare
    | minOf a b =>
        by_cases settled : ∃ x y, a = .concrete x ∧ b = .concrete y
        · obtain ⟨x, y, rfl, rfl⟩ := settled
          rw [resolution_bare] at h
          cases h
          exact ⟨Or.inl (Or.inr ⟨x, y, rfl⟩), trivial, fun _ => rfl⟩
        · rw [resolution_nested settled, if_neg (mt (canResolve_false_iff rfl).mp bare)] at h
          cases h

theorem resolution_defined {t : Label L} : (∃ r, resolution t = some r) ↔ Resolvable t := by
  constructor
  · rintro ⟨r, h⟩
    exact (resolution_some h).1
  · rintro ((⟨a, rfl⟩ | ⟨a, b, rfl⟩) | bare)
    · exact ⟨_, resolution_concrete a⟩
    · exact ⟨_, resolution_bare a b⟩
    · exact ⟨t, resolution_eq_self bare⟩

/-! ## The lowest of the leaves -/

theorem isGLB_eval (ρ : Int → Int → L) (t : Label L) :
    IsGLB {x | ∃ l ∈ leaves t, x = eval ρ l} (eval ρ t) := by
  rw [isGLB_iff_le_iff]
  intro x
  rw [le_eval_iff]
  constructor
  · rintro below _ ⟨l, mem, rfl⟩
    exact below l mem
  · intro below l mem
    exact below ⟨l, mem, rfl⟩

/-- The same leaves, whatever their nesting, order and number. -/
def SameLeaves (t t' : Label L) : Prop := ∀ l, l ∈ leaves t ↔ l ∈ leaves t'

theorem SameLeaves.eval_eq {t t' : Label L} (same : SameLeaves t t') (ρ : Int → Int → L) :
    eval ρ t = eval ρ t' := by
  have lowest := isGLB_eval ρ t
  simp only [same _] at lowest
  exact lowest.unique (isGLB_eval ρ t')

/-- Every leaf is a concrete label. -/
def AllConcrete (t : Label L) : Prop := ∀ l ∈ leaves t, ∃ a, l = .concrete a

omit [LinearOrder L] in
theorem AllConcrete.noBareMin {t : Label L} (all : AllConcrete t) (bare : NoBareMin t) :
    ∃ a, t = .concrete a := by
  induction t with
  | concrete l => exact ⟨l, rfl⟩
  | temp s d =>
      obtain ⟨a, h⟩ := all (.temp s d) (List.mem_singleton.mpr rfl)
      cases h
  | minOf a b iha ihb =>
      obtain ⟨bare_a, bare_b, differ⟩ := noBareMin_minOf.mp bare
      obtain ⟨x, hx⟩ := iha (fun l mem => all l (List.mem_append_left _ mem)) bare_a
      obtain ⟨y, hy⟩ := ihb (fun l mem => all l (List.mem_append_right _ mem)) bare_b
      exact absurd ⟨x, y, hx, hy⟩ differ

/-- Once all leaves are concrete, a label that resolves becomes the lowest of them. -/
theorem resolution_lowest {t : Label L} (all : AllConcrete t) (res : Resolvable t) :
    ∃ m, resolution t = some (.concrete m) ∧ IsGLB {a | .concrete a ∈ leaves t} m := by
  have lowest (ρ : Int → Int → L) : IsGLB {a | .concrete a ∈ leaves t} (eval ρ t) := by
    have here : {a | .concrete a ∈ leaves t} = {x | ∃ l ∈ leaves t, x = eval ρ l} := by
      ext x
      constructor
      · intro mem
        exact ⟨.concrete x, mem, rfl⟩
      · rintro ⟨l, mem, rfl⟩
        obtain ⟨a, rfl⟩ := all l mem
        exact mem
    rw [here]
    exact isGLB_eval ρ t
  have settled : Settled t := by
    rcases res with settled | bare
    · exact settled
    · exact Or.inl (all.noBareMin bare)
  rcases settled with ⟨a, rfl⟩ | ⟨a, b, rfl⟩
  · exact ⟨a, rfl, lowest fun _ _ => a⟩
  · exact ⟨min a b, resolution_bare a b, lowest fun _ _ => a⟩

theorem resolvedLabelMin_some [BoundedOrder L] {a b : Label L}
    (res : Resolvable (minOf a b)) :
    ∃ r, resolvedLabelMin a b = some r ∧ ∀ ρ, eval ρ r = eval ρ (minOf a b) := by
  obtain ⟨r, h⟩ := resolution_defined.mpr res
  refine ⟨_, by rw [resolvedLabelMin, h]; rfl, fun ρ => ?_⟩
  split
  · rename_i low
    rcases low with rfl | rfl <;> simp
  · exact (resolution_some h).2.2 ρ

/-! ## Substitution -/

/-- Putting a resolved label for a temporary one always gives a resolved label. -/
theorem replace_some (seq depth : Int) {new : Label L} (bare : NoBareMin new) (t : Label L) :
    ∃ r, replace seq depth new t = some r ∧ NoBareMin r := by
  induction t with
  | concrete l => exact ⟨_, rfl, trivial⟩
  | temp s d =>
      refine ⟨_, rfl, ?_⟩
      split
      · exact bare
      · trivial
  | minOf a b iha ihb =>
      obtain ⟨x, hx, bare_x⟩ := iha
      obtain ⟨y, hy, bare_y⟩ := ihb
      have res : Resolvable (minOf x y) := by
        by_cases both : ∃ c d, x = .concrete c ∧ y = .concrete d
        · obtain ⟨c, d, rfl, rfl⟩ := both
          exact Or.inl (Or.inr ⟨c, d, rfl⟩)
        · exact Or.inr (noBareMin_minOf.mpr ⟨bare_x, bare_y, both⟩)
      obtain ⟨r, hr⟩ := resolution_defined.mpr res
      refine ⟨r, ?_, (resolution_some hr).2.1⟩
      simp [replace, hx, hy, hr]

/-- Substituting and resolving is resolving, substituting and resolving again. -/
theorem replace_commutes {t : Label L} (res : Resolvable t) (seq depth : Int)
    (new : Label L) :
    (replace seq depth new t).bind resolution =
      ((resolution t).bind (replace seq depth new)).bind resolution := by
  rcases res with (⟨a, rfl⟩ | ⟨a, b, rfl⟩) | bare
  · rfl
  · simp [replace]
  · rw [resolution_eq_self bare]
    rfl

/-- Where resolution is defined, it is what the total functions of label inference compute. -/
theorem resolution_eq_resolve {a b r : Label L} (h : resolution (minOf a b) = some r) :
    r = resolve a b := by
  by_cases both : ∃ x y, a = .concrete x ∧ b = .concrete y
  · obtain ⟨x, y, rfl, rfl⟩ := both
    exact (Option.some.inj h).symm
  · rw [resolution_nested both] at h
    split at h
    · rw [← Option.some.inj h]
      cases a <;> cases b <;> simp_all [resolve]
    · cases h

theorem replace_eq_labelReplace {seq depth : Int} {new t r : Label L}
    (h : replace seq depth new t = some r) : r = labelReplace seq depth new t := by
  induction t generalizing r with
  | concrete l => exact (Option.some.inj h).symm
  | temp s d => exact (Option.some.inj h).symm
  | minOf a b iha ihb =>
      obtain ⟨x, hx, h⟩ := Option.bind_eq_some_iff.mp h
      obtain ⟨y, hy, h⟩ := Option.bind_eq_some_iff.mp h
      rw [labelReplace, ← iha hx, ← ihb hy]
      exact resolution_eq_resolve h

/-- Two spellings of the same leaves resolve to labels that mean the same. -/
def SameMeaning (t t' : Label L) : Prop :=
  SameLeaves t t' → ∀ r r', resolution t = some r → resolution t' = some r' →
    ∀ ρ, eval ρ r = eval ρ r'

/-- Two spellings of the same leaves resolve to the same label. -/
def SameLabel (t t' : Label L) : Prop := SameLeaves t t' → resolution t = resolution t'

theorem sameMeaning (t t' : Label L) : SameMeaning t t' := by
  intro same r r' h h' ρ
  calc
    eval ρ r = eval ρ t := (resolution_some h).2.2 ρ
    _ = eval ρ t' := same.eval_eq ρ
    _ = eval ρ r' := ((resolution_some h').2.2 ρ).symm

theorem Settled.resolution {t : Label L} (settled : Settled t) (ρ : Int → Int → L) :
    Label.resolution t = some (.concrete (eval ρ t)) := by
  rcases settled with ⟨a, rfl⟩ | ⟨a, b, rfl⟩
  · rfl
  · exact resolution_bare a b

/-! ## What resolution must do -/

variable [BoundedOrder L]

/-- Resolution of the label is defined, gives the lowest leaf once all are concrete, also
through `resolved_label_min`, and commutes with every substitution; substituting a resolved
label is defined. -/
structure ResolvesRight (t : Label L) : Prop where
  defined : ∃ r, resolution t = some r
  lowest : AllConcrete t →
    ∃ m, resolution t = some (.concrete m) ∧ IsGLB {a | .concrete a ∈ leaves t} m
  floor : ∀ a b, t = .minOf a b →
    ∃ r, resolvedLabelMin a b = some r ∧ ∀ ρ, eval ρ r = eval ρ t
  commutes : ∀ seq depth new, (replace seq depth new t).bind resolution =
    ((resolution t).bind (replace seq depth new)).bind resolution
  replaced : ∀ seq depth new, resolution new = some new →
    ∃ r, (replace seq depth new t).bind resolution = some r

theorem resolvesRight_iff (t : Label L) : ResolvesRight t ↔ Resolvable t := by
  constructor
  · intro right
    exact resolution_defined.mp right.defined
  · intro res
    refine ⟨resolution_defined.mpr res, fun all => resolution_lowest all res, ?_,
      replace_commutes res, ?_⟩
    · rintro a b rfl
      exact resolvedLabelMin_some res
    · intro seq depth new fixed
      obtain ⟨r, hr, bare⟩ := replace_some seq depth (resolution_some fixed).2.1 t
      exact ⟨r, by rw [hr, Option.bind_some, resolution_eq_self bare]⟩

theorem sameLabel_iff {t t' : Label L} (res : Resolvable t) (res' : Resolvable t') :
    SameLabel t t' ↔ (SameLeaves t t' → t = t' ∨ Settled t ∧ Settled t') := by
  refine imp_congr_right fun same => ?_
  constructor
  · intro equal
    rcases res with settled | bare <;> rcases res' with settled' | bare'
    · exact Or.inr ⟨settled, settled'⟩
    · rw [settled.resolution fun _ _ => ⊥, resolution_eq_self bare'] at equal
      exact Or.inr ⟨settled, Or.inl ⟨_, (Option.some.inj equal).symm⟩⟩
    · rw [settled'.resolution fun _ _ => ⊥, resolution_eq_self bare] at equal
      exact Or.inr ⟨Or.inl ⟨_, Option.some.inj equal⟩, settled'⟩
    · rw [resolution_eq_self bare, resolution_eq_self bare'] at equal
      exact Or.inl (Option.some.inj equal)
  · rintro (rfl | ⟨settled, settled'⟩)
    · rfl
    · rw [settled.resolution fun _ _ => ⊥, settled'.resolution fun _ _ => ⊥, same.eval_eq]

/-- For every two labels: resolution does what it must and does not depend on the spelling
in its meaning exactly when both labels are resolvable; it does not depend on it at all
exactly when, besides, labels with the same leaves are either the same or both settled. -/
theorem resolution_right_iff (t t' : Label L) :
    (ResolvesRight t ∧ ResolvesRight t' ∧ SameMeaning t t' ↔ Resolvable t ∧ Resolvable t') ∧
    (ResolvesRight t ∧ ResolvesRight t' ∧ SameLabel t t' ↔
      Resolvable t ∧ Resolvable t' ∧ (SameLeaves t t' → t = t' ∨ Settled t ∧ Settled t')) := by
  rw [resolvesRight_iff, resolvesRight_iff]
  constructor
  · constructor
    · rintro ⟨res, res', -⟩
      exact ⟨res, res'⟩
    · rintro ⟨res, res'⟩
      exact ⟨res, res', sameMeaning t t'⟩
  · constructor
    · rintro ⟨res, res', same⟩
      exact ⟨res, res', (sameLabel_iff res res').mp same⟩
    · rintro ⟨res, res', spelled⟩
      exact ⟨res, res', (sameLabel_iff res res').mpr spelled⟩

/-- The lowest of three labels, each of them concrete. -/
def lowestOfThree : Label (Fin 4) := .minOf (.minOf (.concrete 1) (.concrete 2)) (.concrete 3)

/-- It does not resolve, although every leaf is concrete. -/
theorem lowestOfThree_unresolved :
    resolution lowestOfThree = none ∧ AllConcrete lowestOfThree ∧
      ¬ ResolvesRight lowestOfThree := by
  have undefined : resolution lowestOfThree = none := rfl
  refine ⟨undefined, ?_, ?_⟩
  · intro l mem
    simp only [lowestOfThree, leaves, List.cons_append, List.nil_append, List.mem_cons,
      List.not_mem_nil, or_false] at mem
    rcases mem with rfl | rfl | rfl <;> exact ⟨_, rfl⟩
  · rintro ⟨⟨r, h⟩, -⟩
    rw [undefined] at h
    cases h

end MixT.Label
