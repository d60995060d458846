import Mathlib.Data.List.Induction

/-! # Runs of a partial step function

A step function sends a state and an action to the next state, or refuses the
action. The rules here carry a property of one step to every state of a run,
and carry an exact condition on one step to an exact condition on a run. -/

namespace MixT.Library.Runs

variable {State Action : Type*} (step : State → Action → Option State)

/-- Take the actions in order, stopping at the first refused one. -/
def run (s : State) : List Action → Option State
  | [] => some s
  | a :: rest => (step s a).bind fun t => run t rest

/-- A run over a prefix of the actions ends in `t`. -/
def Visits (s : State) (acts : List Action) (t : State) : Prop :=
  ∃ pre, pre <+: acts ∧ run step s pre = some t

/-- The run over the actions takes action `a` from `t` to `t'`. -/
def Takes (s : State) (acts : List Action) (t : State) (a : Action) (t' : State) : Prop :=
  ∃ pre post, acts = pre ++ a :: post ∧ run step s pre = some t ∧ step t a = some t'

/-- The run over the actions reaches `t` and tries action `a` there, accepted or not. -/
def Attempts (s : State) (acts : List Action) (t : State) (a : Action) : Prop :=
  ∃ pre post, acts = pre ++ a :: post ∧ run step s pre = some t

variable {step}

@[simp] theorem run_nil (s : State) : run step s [] = some s := rfl

theorem run_cons (s : State) (a : Action) (rest : List Action) :
    run step s (a :: rest) = (step s a).bind fun t => run step t rest := rfl

theorem run_cons_some {s t : State} {a : Action} {rest : List Action} :
    run step s (a :: rest) = some t ↔
      ∃ u, step s a = some u ∧ run step u rest = some t := by
  simp [run_cons, Option.bind_eq_some_iff]

theorem run_append_some {s t : State} {pre post : List Action} :
    run step s (pre ++ post) = some t ↔
      ∃ u, run step s pre = some u ∧ run step u post = some t := by
  induction pre generalizing s with
  | nil => simp
  | cons a rest ih =>
      simp only [List.cons_append, run_cons_some, ih]
      constructor
      · rintro ⟨u, hu, v, hv, ht⟩
        exact ⟨v, ⟨u, hu, hv⟩, ht⟩
      · rintro ⟨v, ⟨u, hu, hv⟩, ht⟩
        exact ⟨u, hu, v, hv, ht⟩

theorem run_snoc_some {s t : State} {pre : List Action} {a : Action} :
    run step s (pre ++ [a]) = some t ↔ ∃ u, run step s pre = some u ∧ step u a = some t := by
  simp [run_append_some, run_cons_some]

theorem visits_end {s t : State} {acts : List Action} (h : run step s acts = some t) :
    Visits step s acts t :=
  ⟨acts, List.prefix_rfl, h⟩

theorem takes_before {s t t' : State} {a : Action} {acts : List Action}
    (h : Takes step s acts t a t') : Visits step s acts t := by
  obtain ⟨pre, post, rfl, hpre, -⟩ := h
  exact ⟨pre, List.prefix_append _ _, hpre⟩

theorem takes_after {s t t' : State} {a : Action} {acts : List Action}
    (h : Takes step s acts t a t') : Visits step s acts t' := by
  obtain ⟨pre, post, rfl, hpre, hstep⟩ := h
  refine ⟨pre ++ [a], ⟨post, by simp⟩, ?_⟩
  exact run_snoc_some.mpr ⟨t, hpre, hstep⟩

/-- What holds at the start and is kept by every taken step holds at every visited state. -/
theorem visits_induction {s : State} {acts : List Action} (P : State → Prop) (start : P s)
    (keeps : ∀ t a t', Takes step s acts t a t' → P t → P t') {t : State}
    (h : Visits step s acts t) : P t := by
  obtain ⟨pre, hpre, hrun⟩ := h
  induction pre using List.reverseRecOn generalizing t with
  | nil =>
      simp only [run_nil, Option.some.injEq] at hrun
      exact hrun ▸ start
  | append_singleton pre a ih =>
      obtain ⟨post, rfl⟩ := hpre
      obtain ⟨u, hu, hstep⟩ := run_snoc_some.mp hrun
      have before : P u := ih ⟨a :: post, by simp⟩ hu
      exact keeps u a t ⟨pre, post, by simp, hu, hstep⟩ before

/-- An invariant of the step function holds at every visited state. -/
theorem visits_invariant {s : State} {acts : List Action} (J : State → Prop) (start : J s)
    (keeps : ∀ t a t', step t a = some t' → J t → J t') {t : State}
    (h : Visits step s acts t) : J t :=
  visits_induction J start
    (fun t a t' ⟨_, _, _, _, hstep⟩ => keeps t a t' hstep) h

/-- If one step keeps `P` exactly when it meets `Cond`, then a run keeps `P` throughout
exactly when every step it takes meets `Cond`. The invariant `J` supports the step rule. -/
theorem visits_iff_takes {s : State} {acts : List Action} (J P : State → Prop)
    (Cond : State → Action → Prop) (startJ : J s) (startP : P s)
    (keepsJ : ∀ t a t', step t a = some t' → J t → J t')
    (exact_step : ∀ t a t', step t a = some t' → J t → P t → (P t' ↔ Cond t a)) :
    (∀ t, Visits step s acts t → P t) ↔ ∀ t a t', Takes step s acts t a t' → Cond t a := by
  constructor
  · intro all t a t' h
    have hJ : J t := visits_invariant J startJ keepsJ (takes_before h)
    have hP : P t := all t (takes_before h)
    have hP' : P t' := all t' (takes_after h)
    obtain ⟨_, _, _, _, hstep⟩ := h
    exact (exact_step t a t' hstep hJ hP).mp hP'
  · intro conds t h
    refine visits_induction P startP ?_ h
    intro u a u' htakes hP
    have hJ : J u := visits_invariant J startJ keepsJ (takes_before htakes)
    have hcond : Cond u a := conds u a u' htakes
    obtain ⟨_, _, _, _, hstep⟩ := htakes
    exact (exact_step u a u' hstep hJ hP).mpr hcond

theorem attempts_nil {s t : State} {a : Action} : ¬ Attempts step s [] t a := by
  rintro ⟨pre, post, h, -⟩
  exact absurd h (by simp)

theorem attempts_cons {s t : State} {a b : Action} {rest : List Action} :
    Attempts step s (a :: rest) t b ↔
      (t = s ∧ b = a) ∨ ∃ u, step s a = some u ∧ Attempts step u rest t b := by
  constructor
  · rintro ⟨pre, post, split, hrun⟩
    cases pre with
    | nil =>
        simp only [List.nil_append, List.cons.injEq] at split
        simp only [run_nil, Option.some.injEq] at hrun
        exact Or.inl ⟨hrun.symm, split.1.symm⟩
    | cons c pre =>
        simp only [List.cons_append, List.cons.injEq] at split
        obtain ⟨rfl, rfl⟩ := split
        obtain ⟨u, hu, hpre⟩ := run_cons_some.mp hrun
        exact Or.inr ⟨u, hu, pre, post, rfl, hpre⟩
  · rintro (⟨rfl, rfl⟩ | ⟨u, hu, pre, post, rfl, hpre⟩)
    · exact ⟨[], rest, rfl, rfl⟩
    · exact ⟨a :: pre, post, rfl, run_cons_some.mpr ⟨u, hu, hpre⟩⟩

/-- If one attempt is right exactly when it meets `Cond`, as long as all before it met
`Cond`, then all attempts of a run are right exactly when all of them meet `Cond`. -/
theorem attempts_iff_attempts {s : State} {acts : List Action} (J : State → Prop)
    (Right Cond : State → Action → Prop) (start : J s)
    (keeps : ∀ t a t', step t a = some t' → J t → Cond t a → J t')
    (exact_step : ∀ t a, J t → (Right t a ↔ Cond t a)) :
    (∀ t a, Attempts step s acts t a → Right t a) ↔
      ∀ t a, Attempts step s acts t a → Cond t a := by
  induction acts generalizing s with
  | nil => simp [attempts_nil]
  | cons a rest ih =>
      have onward {u : State} (hu : step s a = some u) (met : Cond s a) :=
        ih (keeps s a u hu start met)
      constructor
      · intro right t b h
        have met : Cond s a :=
          (exact_step s a start).mp (right s a (attempts_cons.mpr (Or.inl ⟨rfl, rfl⟩)))
        rcases attempts_cons.mp h with ⟨rfl, rfl⟩ | ⟨u, hu, later⟩
        · exact met
        · apply (onward hu met).mp _ t b later
          intro t b h
          exact right t b (attempts_cons.mpr (Or.inr ⟨u, hu, h⟩))
      · intro meets t b h
        have met : Cond s a := meets s a (attempts_cons.mpr (Or.inl ⟨rfl, rfl⟩))
        rcases attempts_cons.mp h with ⟨rfl, rfl⟩ | ⟨u, hu, later⟩
        · exact (exact_step _ _ start).mpr met
        · apply (onward hu met).mpr _ t b later
          intro t b h
          exact meets t b (attempts_cons.mpr (Or.inr ⟨u, hu, h⟩))

end MixT.Library.Runs
